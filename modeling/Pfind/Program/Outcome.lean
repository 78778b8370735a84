import Pfind.Program.Basic
import Pfind.Scheduler.Progress

/-!
# How the program ends, and what it has printed then

* `workers_refinement` : the workers in a run of the program go through a run of
  `Scheduler.Basic`; the main thread is not seen there.
* `sound` : what the main thread has printed, by where it is.
* `stdout_any_time` : **stdout is at all times the beginning of a correct output**: records of
  distinct matches, and behind them only what belongs there.
* `program_output` : **a process that ends without a failed write has printed the records of all
  matches, then the summary**, and exits with code 0.
* `program_ends` : **every run ends**, with an exit code or by the abort of a panic.
-/

namespace Pfind

open Fs

namespace LTS

variable {S L : Type*} {A : LTS S L} {s s' : S} {ls : List L}

theorem Stuck.eq_of_run (hs : A.Stuck s) (h : A.Run s ls s') : s' = s := by
  induction h with
  | nil => rfl
  | snoc _ hst ih => exact (hs _ _ (ih ▸ hst)).elim

end LTS

namespace Scheduler

variable {n : ℕ} [NeZero n] {S : Search} {ls : List (Label n)} {s : State n}

theorem output_finished (h : (lts S).Run (.init S) ls s) (hx : s.exit = none)
    (hf : ∀ i, s.task i = .finished) :
    ∃ ms, s.output = S.records ms ∧ ms.Perm (S.traverse S.root) := by
  obtain ⟨chunks, buf, hl⟩ := exists_ledger h hx
  have hout : s.output = S.records (chunks.flatMap Prod.snd) := by
    rw [State.output, hl.stdout, flatMap_writes]
  cases hc : S.output.countOnly with
  | true =>
    -- nothing is printed for a match
    have hnil : ∀ ms, S.records ms = [] := fun ms => by
      simp [Search.records, Search.printed, printed, printPaths, hc]
    exact ⟨S.traverse S.root, by rw [hout, hnil, hnil], List.Perm.refl _⟩
  | false =>
    -- a thread that has ended has an empty buffer, and no record is empty
    have hbuf : ∀ i, buf i = [] := by
      intro i
      have hfit := fits h i
      rw [hf i, hl.out] at hfit
      by_contra hne
      obtain ⟨m, ms, hm⟩ := List.exists_cons_of_ne_nil hne
      obtain ⟨line, hline⟩ := m.record_eq S.output
      have hp : S.printed m = line ++ [byte '\n'] := by
        simp [Search.printed, printed, printPaths, hc, hline]
      rw [hm] at hfit
      simp [Task.Fits, Search.records, hp] at hfit
    refine ⟨_, hout, (Multiset.coe_eq_coe.1 ?_).trans (hits_perm_traverse h hf)⟩
    rw [coe_flatMap_written, coe_hits_found]
    refine Finset.sum_congr rfl fun i _ => ?_
    rw [← hl.found i, hbuf i, List.append_nil]

theorem counters_finished (h : (lts S).Run (.init S) ls s) (hf : ∀ i, s.task i = .finished) :
    s.matched = (S.traverse S.root).length ∧
      s.totalSize.toNat = ((S.traverse S.root).map Match.bytes).sum % 2 ^ 64 := by
  have hperm := hits_perm_traverse h hf
  have hcount := count_eq h
  have hsize := size_modEq h
  have hlocal : ∀ i, (s.ws i).localCount = 0 ∧ (s.ws i).localSize = 0 := fun i => by
    have hi := settled h i
    rwa [hf i] at hi
  simp only [State.counted, State.sized, hlocal, UInt64.toNat_zero, Finset.sum_const_zero,
    add_zero] at hcount hsize
  rw [hcount, hperm.length_eq, ← (hperm.map Match.bytes).sum_eq]
  exact ⟨rfl, (Nat.mod_eq_of_lt s.totalSize.toNat_lt).symm.trans hsize⟩

theorem exit_failed (h : (lts S).Run (.init S) ls s) {code : ℕ} (hx : s.exit = some code) :
    (code = 0 ∨ code = 1) ∧ ∃ i, .failed i ∈ ls := by
  cases h with
  | nil => cases hx
  | @snoc ls s₁ _ l _ hst =>
    cases hst with
    | @fail i pre brokenPipe =>
      refine ⟨?_, i, by simp⟩
      have hcode : (if brokenPipe then 0 else 1) = code := Option.some.inj hx
      split_ifs at hcode <;> omega
    | next hn => exact absurd hx (by simp [(next_exit hn).2])

end Scheduler

namespace Program

open Scheduler (Search)

variable {n : ℕ} {S : Search} {s s' : State n} {l : Label n} {ls : List (Label n)}

/-! ### What the main thread does -/

/-- All workers have ended, and none of them has ended the process. -/
def State.Joined (s : State n) : Prop := s.run.exit = none ∧ ∀ i, s.run.task i = .finished

/-- **The main thread goes from point to point**, the first time when the workers are joined. -/
theorem next_cases (h : s.next S = some s') :
    s.main = .scope ∧ s.Joined ∧ s' = { s with main := .count } ∨
    s.main = .count ∧
      s' = { s with main := .total, printed := s.printed ++ countText S s.run.matched } ∨
    s.main = .total ∧ s' = { s with
      main := .returned, printed := s.printed ++ totalText S s.run.totalSize.toNat } := by
  unfold State.next at h
  cases hm : s.main with
  | scope =>
    simp only [hm] at h
    split_ifs at h with hj
    cases h
    exact Or.inl ⟨rfl, hj, rfl⟩
  | count =>
    simp only [hm, State.text] at h
    cases h
    exact Or.inr (Or.inl ⟨rfl, rfl⟩)
  | total =>
    simp only [hm, State.text] at h
    cases h
    exact Or.inr (Or.inr ⟨rfl, rfl⟩)
  | returned | aborted =>
    simp only [hm] at h
    cases h

theorem text_cases (h : s.text S ≠ []) :
    s.main = .count ∧ s.text S = countText S s.run.matched ∨
      s.main = .total ∧ s.text S = totalText S s.run.totalSize.toNat := by
  cases hm : s.main with
  | count => exact Or.inl ⟨rfl, by rw [State.text, hm]⟩
  | total => exact Or.inr ⟨rfl, by rw [State.text, hm]⟩
  | scope | returned | aborted => exact absurd (by rw [State.text, hm]) h

/-! ### The workers in a run of the program -/

/-- What a step is for the workers. -/
def Label.worked : Label n → Option (Scheduler.Label n)
  | .worker l => some l
  | _ => none

theorem run_of_next (h : s.next S = some s') : s'.run = s.run := by
  rcases next_cases h with ⟨-, -, rfl⟩ | ⟨-, rfl⟩ | ⟨-, rfl⟩ <;> rfl

/-- **The workers of the program are those of `Scheduler.Basic`.** -/
theorem workers_refinement (S : Search) (s₀ : State n) :
    LTS.Refinement (lts S) (Scheduler.lts S) Label.worked s₀ fun s t => t = s.run where
  step := by
    rintro s _ l s' - rfl hst
    refine ⟨s'.run, ?_, rfl⟩
    cases hst with
    | worker _ hst | abort _ hst => exact hst
    | main h => exact run_of_next h
    | fail => rfl

variable [NeZero n]

theorem workers_run (h : (lts S).Run (.init S) ls s) :
    (Scheduler.lts S).Run (.init S) (ls.filterMap Label.worked) s.run := by
  obtain ⟨_, hr, rfl⟩ := (workers_refinement S (.init S)).run h rfl
  exact hr

/-! ### What the main thread prints -/

/-- The summary: how many matches there are, and how large they are. -/
def summary (S : Search) : Bytes :=
  countText S (S.traverse S.root).length ++
    totalText S (((S.traverse S.root).map Scheduler.Match.bytes).sum % 2 ^ 64)

/-- What the main thread has printed when it is at some point. -/
def Main.Printed (S : Search) (s : State n) (printed : Bytes) : Main → Prop
  | .scope | .count => printed = []
  | .total => printed = countText S s.run.matched
  | .returned => printed = countText S s.run.matched ++ totalText S s.run.totalSize.toNat
  | .aborted => printed <+: countText S s.run.matched ++ totalText S s.run.totalSize.toNat

/-- A worker has aborted the process, which ends the run of the workers. -/
def State.Crashed (s : State n) : Prop :=
  s.main = .aborted ∧ s.run.exit ≠ none ∧ s.printed = []

/-- The main thread leaves the scope when all workers have ended, or the process is aborted. -/
structure State.Sound (S : Search) (s : State n) : Prop where
  joined : s.main = .scope ∨ s.Joined ∨ s.Crashed
  printed : s.main.Printed S s s.printed

omit [NeZero n] in
theorem State.Sound.joined_of {s : State n} (h : s.Sound S) (hs : s.main ≠ .scope)
    (ha : s.main ≠ .aborted) : s.Joined :=
  (h.joined.resolve_left hs).resolve_right fun hc => ha hc.1

omit [NeZero n] in
theorem Step.sound (h : Step S s l s') (hs : s.Sound S) : s'.Sound S := by
  have hp := hs.printed
  cases h with
  | worker hm _ =>
    rw [hm] at hp
    refine ⟨Or.inl hm, ?_⟩
    show Main.Printed S _ s.printed s.main
    rw [hm]
    exact hp
  | abort hm _ hx =>
    rw [hm] at hp
    have hp : s.printed = [] := hp
    refine ⟨Or.inr (Or.inr ⟨rfl, by simp [hx], hp⟩), ?_⟩
    show s.printed <+: _
    rw [hp]
    exact List.nil_prefix
  | main h =>
    rcases next_cases h with ⟨hm, hj, rfl⟩ | ⟨hm, rfl⟩ | ⟨hm, rfl⟩ <;> rw [hm] at hp
    · exact ⟨Or.inr (Or.inl hj), hp⟩
    · have hp : s.printed = [] := hp
      refine ⟨Or.inr (Or.inl (hs.joined_of (by simp [hm]) (by simp [hm]))), ?_⟩
      show s.printed ++ _ = _
      rw [hp, List.nil_append]
    · have hp : s.printed = countText S s.run.matched := hp
      refine ⟨Or.inr (Or.inl (hs.joined_of (by simp [hm]) (by simp [hm]))), ?_⟩
      show s.printed ++ _ = _
      rw [hp]
  | @fail pre hne hpre =>
    rcases text_cases hne with ⟨hm, htext⟩ | ⟨hm, htext⟩ <;> rw [hm] at hp <;> rw [htext] at hpre
    · have hp : s.printed = [] := hp
      refine ⟨Or.inr (Or.inl (hs.joined_of (by simp [hm]) (by simp [hm]))), ?_⟩
      show s.printed ++ pre <+: _
      rw [hp]
      exact hpre.trans (List.prefix_append _ _)
    · have hp : s.printed = countText S s.run.matched := hp
      refine ⟨Or.inr (Or.inl (hs.joined_of (by simp [hm]) (by simp [hm]))), ?_⟩
      show s.printed ++ pre <+: _
      rw [hp]
      exact (List.prefix_append_right_inj _).2 hpre

theorem sound (h : (lts S).Reachable (.init S) s) : s.Sound S :=
  h.invariant ⟨Or.inl rfl, rfl⟩ fun _ _ _ _ hs hst => hst.sound hs

/-- When the workers have been joined, the counters of the run are those of the traversal, and all
records of the matches are on stdout. -/
theorem of_joined (h : (lts S).Run (.init S) ls s) (hj : s.Joined) :
    countText S s.run.matched ++ totalText S s.run.totalSize.toNat = summary S ∧
      ∃ ms, s.run.output = S.records ms ∧ ms.Perm (S.traverse S.root) := by
  obtain ⟨hx, hf⟩ := hj
  have hr := workers_run h
  obtain ⟨hmatched, hsize⟩ := Scheduler.counters_finished hr hf
  rw [hmatched, hsize]
  exact ⟨rfl, Scheduler.output_finished hr hx hf⟩

theorem exit_failed (h : (lts S).Run (.init S) ls s) {code : ℕ} (hx : s.run.exit = some code) :
    (code = 0 ∨ code = 1) ∧ ∃ i, .worker (.failed i) ∈ ls := by
  obtain ⟨hc, i, hi⟩ := Scheduler.exit_failed (workers_run h) hx
  obtain ⟨l, hl, hli⟩ := List.mem_filterMap.1 hi
  refine ⟨hc, i, ?_⟩
  cases l with
  | worker l => cases hli; exact hl
  | main | failed => cases hli

/-! ### Whole runs -/

omit [NeZero n] in
theorem Main.Printed.isPrefix {printed : Bytes} {m : Main} (h : m.Printed S s printed) :
    printed <+: countText S s.run.matched ++ totalText S s.run.totalSize.toNat := by
  cases m with
  | scope | count =>
    rw [show printed = [] from h]
    exact List.nil_prefix
  | total =>
    rw [show printed = _ from h]
    exact List.prefix_append _ _
  | returned =>
    rw [show printed = _ from h]
  | aborted => exact h

/-- **Stdout is at all times the beginning of a correct output**, whatever the order of the steps
and whichever write fails.  It consists of complete records of distinct matches of the traversal,
and behind them of nothing, or, when these are all the matches, of a beginning of the summary, or,
when the process has been ended by a failed write of a worker, of a beginning of the record of one
more match. -/
theorem stdout_any_time (S : Search) {ls : List (Label n)} {s : State n}
    (h : (lts S).Run (.init S) ls s) :
    ∃ ms rest, s.stdout = S.records ms ++ rest ∧ ms.Subperm (S.traverse S.root) ∧
      (rest = [] ∨ (ms.Perm (S.traverse S.root) ∧ rest <+: summary S) ∨
        (s.Ended ∧ (∃ i, .worker (.failed i) ∈ ls) ∧
          ∃ m, (m :: ms).Subperm (S.traverse S.root) ∧ rest <+: S.printed m)) := by
  have hsound := sound h.reachable
  have hp := hsound.printed
  by_cases hj : s.Joined
  -- all records are there, and the summary is being printed
  · obtain ⟨hsum, ms, hout, hms⟩ := of_joined h hj
    refine ⟨ms, s.printed, by rw [State.stdout, hout], hms.subperm, Or.inr (Or.inl ⟨hms, ?_⟩)⟩
    rw [← hsum]
    exact hp.isPrefix
  -- the main thread has printed nothing yet, or never will
  · obtain ⟨hnil, hend⟩ : s.printed = [] ∧ (s.run.exit ≠ none → s.Ended) := by
      rcases hsound.joined with hm | hj' | ⟨hm, -, hnil⟩
      · rw [hm] at hp
        refine ⟨hp, fun hx => Or.inl ?_⟩
        simpa [State.exitCode, hm, Option.isSome_iff_ne_none] using hx
      · exact absurd hj' hj
      · exact ⟨hnil, fun _ => Or.inr hm⟩
    obtain ⟨ms, torn, hout, hms, htorn⟩ := Scheduler.stdout_records (workers_run h)
    refine ⟨ms, torn, by rw [State.stdout, hnil, List.append_nil, hout], hms,
      htorn.imp_right ?_⟩
    rintro ⟨hx, hm⟩
    obtain ⟨code, hcode⟩ := Option.ne_none_iff_exists'.1 hx
    exact Or.inr ⟨hend hx, (exit_failed h hcode).2, hm⟩

/-- The write of `r/f` has failed behind two bytes. -/
theorem stdout_any_time_small :
    ∃ (ls : List (Label 2)) (s : State 2), (lts Scheduler.small).Run (.init Scheduler.small) ls s ∧
      s.stdout = [byte 'r', byte '/'] ∧ ∃ ms rest,
        s.stdout = Scheduler.small.records ms ++ rest ∧
          ms.Subperm (Scheduler.small.traverse Scheduler.small.root) := by
  obtain ⟨ls, s, -, hr, hs⟩ := LTS.Run.of_exec_map step_of_nextOf
    (show (LTS.exec (State.nextOf Scheduler.small) ((Scheduler.small.schedule.take 34).map some)
        (State.init Scheduler.small)).map
      (fun x : List (Label 2) × State 2 => decide (x.2.main = .scope ∧ x.2.run.exit = none ∧
        x.2.run.task 0 = .loop ∧ x.2.run.sys.pc 0 = .returned ∧
        (x.2.run.ws 0).out = "r/f\n".toList.map byte ∧ x.2.run.output = [] ∧ x.2.printed = [])) =
        some true by decide)
  simp only [decide_eq_true_eq] at hs
  obtain ⟨hm, hx, ht, hpc, hout, houtput, hprinted⟩ := hs
  have hw : s.run.Writing 0 := ⟨by simp [hout], by simp [ht, hpc]⟩
  have hp : [byte 'r', byte '/'] <+: (s.run.ws 0).out := by rw [hout]; decide
  have hr' := hr.snoc (.worker hm (.fail true hx hw hp))
  obtain ⟨ms, rest, heq, hms, -⟩ := stdout_any_time Scheduler.small hr'
  refine ⟨_, _, hr', ?_, ms, rest, heq, hms⟩
  show (s.run.stdout ++ [(0, [byte 'r', byte '/'])]).flatMap Prod.snd ++ s.printed = _
  rw [hprinted, List.append_nil, List.flatMap_append,
    show s.run.stdout.flatMap Prod.snd = [] from houtput]
  rfl

theorem exitCode_cases (h : (lts S).Run (.init S) ls s) {code : ℕ}
    (hcode : s.exitCode = some code) :
    s.main = .returned ∧ code = 0 ∨
      (code = 0 ∨ code = 1) ∧ ∃ i, .worker (.failed i) ∈ ls := by
  unfold State.exitCode at hcode
  split at hcode
  · cases hcode
    exact Or.inl ⟨‹_›, rfl⟩
  · cases hcode
  · exact Or.inr (exit_failed h hcode)

theorem failed_of_aborted (h : (lts S).Run (.init S) ls s) (hm : s.main = .aborted) :
    ∃ l ∈ ls, l.Failed := by
  cases h with
  | nil => cases hm
  | snoc _ hst =>
    cases hst with
    | worker hscope =>
      rw [show _ = Main.aborted from hm] at hscope
      cases hscope
    | abort | fail => exact ⟨_, List.mem_append_right _ (List.mem_singleton_self _), trivial⟩
    | main hn => rcases next_cases hn with ⟨-, -, rfl⟩ | ⟨-, rfl⟩ | ⟨-, rfl⟩ <;> cases hm

/-- A process that ends without a failed write has returned from the main thread. -/
theorem main_of_end (h : (lts S).Run (.init S) ls s) (hend : s.exitCode.isSome = true)
    (hok : ∀ l ∈ ls, ¬ l.Failed) : s.main = .returned ∧ s.exitCode = some 0 := by
  obtain ⟨code, hcode⟩ := Option.isSome_iff_exists.1 hend
  rcases exitCode_cases h hcode with ⟨hm, rfl⟩ | ⟨-, i, hi⟩
  · exact ⟨hm, hcode⟩
  · exact absurd trivial (hok _ hi)

theorem joined_of_returned (h : (lts S).Run (.init S) ls s) (hm : s.main = .returned) :
    s.Joined :=
  (sound h.reachable).joined_of (by simp [hm]) (by simp [hm])

theorem printed_of_returned (h : (lts S).Run (.init S) ls s) (hm : s.main = .returned) :
    s.printed = summary S := by
  have hp := (sound h.reachable).printed
  rw [hm] at hp
  exact hp.trans (of_joined h (joined_of_returned h hm)).1

theorem stdout_of_end (h : (lts S).Run (.init S) ls s) (hend : s.exitCode.isSome = true)
    (hok : ∀ l ∈ ls, ¬ l.Failed) :
    ∃ ms : List Match, ms.Perm (S.traverse S.root) ∧ s.stdout = S.records ms ++ summary S := by
  obtain ⟨hm, -⟩ := main_of_end h hend hok
  obtain ⟨-, ms, hout, hms⟩ := of_joined h (joined_of_returned h hm)
  exact ⟨ms, hms, by rw [State.stdout, hout, printed_of_returned h hm]⟩

/-- **A process that ends without a failed write has printed everything.**  Its output consists of
the records of all matches of the traversal, each once, in some order, and then of the summary, and
its exit code is 0; neither the number of workers nor the order of their steps has a part in
it. -/
theorem program_output (S : Search) {ls : List (Label n)} {s : State n}
    (h : (lts S).Run (.init S) ls s) (hend : s.exitCode.isSome = true)
    (hok : ∀ l ∈ ls, ¬ l.Failed) :
    s.exitCode = some 0 ∧
      ∃ ms, ms.Perm (S.traverse S.root) ∧ s.stdout = S.records ms ++ summary S := by
  exact ⟨(main_of_end h hend hok).2, stdout_of_end h hend hok⟩

/-- Where a schedule leads to: the exit code, the bytes on stdout, and whether all writes have
succeeded. -/
def outcome (S : Search) (schedule : List (Option (Fin n))) : Option (Option ℕ × Bytes × Bool) :=
  (LTS.exec (State.nextOf S) schedule (State.init S)).map fun x : List (Label n) × State n =>
    (x.2.exitCode, x.2.stdout, x.1.all fun l => decide ¬ l.Failed)

theorem run_of_outcome {schedule : List (Option (Fin n))} {out : Bytes}
    (h : outcome S schedule = some (some 0, out, true)) :
    ∃ (ls : List (Label n)) (s : State n), (lts S).Run (.init S) ls s ∧ s.exitCode = some 0 ∧
      s.stdout = out ∧ ∀ l ∈ ls, ¬ l.Failed := by
  obtain ⟨ls, s, -, hr, hs⟩ := LTS.Run.of_exec_map step_of_nextOf h
  simp only [Prod.mk.injEq, List.all_eq_true, decide_eq_true_eq] at hs
  exact ⟨ls, s, hr, hs⟩

/-- Two workers end, and the main thread prints the total size. -/
theorem program_output_small :
    ∃ (ls : List (Label 2)) (s : State 2), (lts Scheduler.small).Run (.init Scheduler.small) ls s ∧
      s.stdout = "r/f\ntotal: 3 bytes\n".toList.map byte ∧ s.exitCode = some 0 ∧
      ∃ ms, s.stdout = Scheduler.small.records ms ++ summary Scheduler.small := by
  obtain ⟨ls, s, hr, hend, hstdout, hok⟩ := run_of_outcome (show outcome Scheduler.small
    (Scheduler.small.schedule.map some ++ [none, none, none]) =
      some (some 0, "r/f\ntotal: 3 bytes\n".toList.map byte, true) by decide)
  obtain ⟨hcode, ms, -, hout⟩ := program_output Scheduler.small hr (by rw [hend]; rfl) hok
  exact ⟨ls, s, hr, hstdout, hcode, ms, hout⟩

/-- A bound on the steps that the main thread may still take. -/
def Main.variant : Main → ℕ
  | .scope => 3
  | .count => 2
  | .total => 1
  | .returned | .aborted => 0

omit [NeZero n] in
theorem Step.variant_lt (h : Step S s l s') :
    s'.run.variant S + s'.main.variant < s.run.variant S + s.main.variant := by
  cases h with
  | worker _ hst =>
    obtain ⟨hx, i, hm⟩ := Scheduler.Step.cases hst
    have := hm.variant_lt hx
    simp only
    omega
  | abort _ hst =>
    obtain ⟨hx, i, hm⟩ := Scheduler.Step.cases hst
    have := hm.variant_lt hx
    simp only [Main.variant]
    omega
  | main h =>
    rcases next_cases h with ⟨hm, -, rfl⟩ | ⟨hm, rfl⟩ | ⟨hm, rfl⟩ <;> simp [hm, Main.variant]
  | fail hne =>
    rcases text_cases hne with ⟨hm, -⟩ | ⟨hm, -⟩ <;> simp [hm, Main.variant]

theorem ended_of_stuck (h : (lts S).Reachable (.init S) s) (hs : (lts S).Stuck s) : s.Ended := by
  have hmain : s.next S = none := by
    cases hn : s.next S with
    | none => rfl
    | some s' => exact (hs _ _ (.main hn)).elim
  cases hm : s.main with
  | returned => exact Or.inl (by simp [State.exitCode, hm])
  | aborted => exact Or.inr hm
  | count | total => simp [State.next, hm] at hmain
  | scope =>
    cases hx : s.run.exit with
    | some code => exact Or.inl (by simp [State.exitCode, hm, hx])
    | none =>
      -- the workers have no step left either, so they have all ended
      have hstuck : (Scheduler.lts S).Stuck s.run := fun l run hst => hs _ _ (.worker hm hst)
      obtain ⟨ls, hr⟩ := h
      obtain ⟨ls', run, hrun, -, hf⟩ := Scheduler.exists_finished (workers_run hr).reachable hx
      rw [hstuck.eq_of_run hrun] at hf
      simp [State.next, hm, hx, hf] at hmain

omit [NeZero n] in
theorem not_ended (hm : s.main ≠ .returned) (ha : s.main ≠ .aborted) (hx : s.run.exit = none) :
    ¬ s.Ended := by
  rintro (hcode | hcode)
  · unfold State.exitCode at hcode
    split at hcode
    · exact hm ‹_›
    · exact ha ‹_›
    · simp [hx] at hcode
  · exact ha hcode

omit [NeZero n] in
theorem stuck_of_ended (h : s.Sound S) (hend : s.Ended) : (lts S).Stuck s := by
  have hprints : ∀ m, m = .count ∨ m = .total → s.main ≠ m := by
    rintro m hm rfl
    have hne : s.main ≠ .scope ∧ s.main ≠ .returned ∧ s.main ≠ .aborted := by
      rcases hm with hm | hm <;> simp [hm]
    exact not_ended hne.2.1 hne.2.2 (h.joined_of hne.1 hne.2.2).1 hend
  intro l s' hst
  cases hst with
  | worker hm hst | abort hm hst =>
    exact not_ended (by simp [hm]) (by simp [hm]) (Scheduler.Step.cases hst).1 hend
  | main hn =>
    rcases next_cases hn with ⟨hm, hj, -⟩ | ⟨hm, -⟩ | ⟨hm, -⟩
    · exact not_ended (by simp [hm]) (by simp [hm]) hj.1 hend
    · exact hprints _ (Or.inl rfl) hm
    · exact hprints _ (Or.inr rfl) hm
  | fail hne =>
    rcases text_cases hne with ⟨hm, -⟩ | ⟨hm, -⟩
    · exact hprints _ (Or.inl rfl) hm
    · exact hprints _ (Or.inr rfl) hm

omit [NeZero n] in
theorem Step.ended (h : Step S s l s') (hl : l.Failed) : s'.Ended := by
  cases h with
  | worker hm hst =>
    obtain ⟨-, i, hmove⟩ := Scheduler.Step.cases hst
    cases hmove with
    | fail => exact Or.inl (by simp [State.exitCode, hm])
    | _ => exact hl.elim
  | main => exact hl.elim
  | abort | fail => exact Or.inr rfl

theorem ended_of_failed (h : (lts S).Run (.init S) ls s) (hfail : ∃ l ∈ ls, l.Failed) :
    s.Ended := by
  refine h.history (P := fun ls s => (∃ l ∈ ls, l.Failed) → s.Ended) ?_ ?_ hfail
  · rintro ⟨l, hl, -⟩
    cases hl
  · rintro ls s l s' hr ih hst ⟨l', hl', hfail⟩
    rcases List.mem_append.1 hl' with hl' | hl'
    · exact absurd hst (stuck_of_ended (sound hr.reachable) (ih ⟨l', hl', hfail⟩) l s')
    · rw [List.mem_singleton.1 hl'] at hfail
      exact Step.ended hst hfail

/-- **Every run of the program ends, with an exit code or by an abort.**  There is a bound on the
number of steps of all runs, whatever the scheduling and whichever writes fail; a state has no next
step if and only if the process has ended.  A failed write ends it at once; an exit code is 0 or 1,
and 1 only if a write of a worker has failed; and the process is aborted only if a write has
failed. -/
theorem program_ends (S : Search) (n : ℕ) [NeZero n] :
    ∃ N, ∀ ls (s : State n), (lts S).Run (.init S) ls s → ls.length ≤ N ∧
      ((lts S).Stuck s ↔ s.Ended) ∧ ((∃ l ∈ ls, l.Failed) → s.Ended) ∧
      (∀ code, s.exitCode = some code → (code = 0 ∨ code = 1) ∧
        (code ≠ 0 → ∃ i, .worker (.failed i) ∈ ls)) ∧
      (s.main = .aborted → s.exitCode = none ∧ ∃ l ∈ ls, l.Failed) := by
  refine ⟨(State.init S : State n).run.variant S + (State.init S : State n).main.variant,
    fun ls s h => ⟨?_, ⟨ended_of_stuck h.reachable, stuck_of_ended (sound h.reachable)⟩,
      ended_of_failed h, fun code hcode => ?_, fun hm => ⟨?_, failed_of_aborted h hm⟩⟩⟩
  · have hle := h.length_add_le (μ := fun s => s.run.variant S + s.main.variant)
      fun _ _ _ _ hst => hst.variant_lt
    omega
  · rcases exitCode_cases h hcode with ⟨-, rfl⟩ | ⟨hc, hfail⟩
    · exact ⟨Or.inl rfl, fun hne => absurd rfl hne⟩
    · exact ⟨hc, fun _ => hfail⟩
  · rw [State.exitCode, hm]

/-- `println!` fails when all records have been written. -/
theorem program_ends_small :
    ∃ (ls : List (Label 2)) (s : State 2), (lts Scheduler.small).Run (.init Scheduler.small) ls s ∧
      s.main = .aborted ∧ (lts Scheduler.small).Stuck s ∧ s.exitCode = none := by
  obtain ⟨ls, s, -, hr, hm⟩ := LTS.Run.of_exec_map step_of_nextOf
    (show (LTS.exec (State.nextOf Scheduler.small)
        (Scheduler.small.schedule.map some ++ [none, none]) (State.init Scheduler.small)).map
        (fun x : List (Label 2) × State 2 => x.2.main) = some .total by decide)
  have hm : s.main = .total := hm
  have htext : s.text Scheduler.small ≠ [] := by
    rw [State.text, hm]
    exact List.cons_ne_nil _ _
  obtain ⟨s', hst, hs'⟩ : ∃ s', Step Scheduler.small s .failed s' ∧ s'.main = .aborted :=
    ⟨_, .fail htext (show ([] : Bytes) <+: _ from List.nil_prefix), rfl⟩
  have hr' := hr.snoc hst
  obtain ⟨N, hN⟩ := program_ends Scheduler.small 2
  obtain ⟨-, hstuck, -, -, habort⟩ := hN _ _ hr'
  exact ⟨_, s', hr', hs', hstuck.2 (Or.inr hs'), (habort hs').1⟩

end Program

end Pfind
