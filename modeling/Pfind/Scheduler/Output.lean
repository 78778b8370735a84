import Pfind.Scheduler.Transition

/-!
# Batched output

Records are collected in the buffer of the worker that has found the match, and a buffer is
written as a whole.

* `Ledger` : the matches behind each write and behind each buffer.  Every step keeps it
  (`Move.ledger`): an entry extends a buffer by one match or by none, `flush_out` moves a buffer
  to stdout, and nothing else touches either.
* `output_complete` : **the output loses, duplicates and tears nothing**: each write consists of
  complete records of one worker; what a worker has written and what is in its buffer are the
  records of the matches it has found, in this order; the buffer is shorter than
  `OUT_FLUSH_BYTES` unless a flush is due, and empty in the end.
-/

namespace Pfind

open Fs

namespace Scheduler

open Function

variable {n : ℕ}

/-- The match that worker `i` found in a step. -/
def Label.found (S : Search) (i : Fin n) : Label n → Option Match
  | .entry j dir e _ => if j = i then S.matchOf dir e else none
  | _ => none

/-- The matches that worker `i` has found in a run, in order. -/
def found (S : Search) (i : Fin n) (ls : List (Label n)) : List Match :=
  ls.filterMap (Label.found S i)

/-- The matches in the writes of worker `i`, in order. -/
def written (chunks : List (Fin n × List Match)) (i : Fin n) : List Match :=
  (chunks.filter (·.1 = i)).flatMap (·.2)

/-- The bytes printed for some matches. -/
def Search.records (S : Search) (ms : List Match) : Bytes := ms.flatMap S.printed

/-- The writes carry the records of the matches `chunks`, the buffers those of `buf`. -/
structure Ledger (S : Search) (ls : List (Label n)) (s : State n)
    (chunks : List (Fin n × List Match)) (buf : Fin n → List Match) : Prop where
  stdout : s.stdout = chunks.map fun c => (c.1, S.records c.2)
  out : ∀ i, (s.ws i).out = S.records (buf i)
  found : ∀ i, written chunks i ++ buf i = found S i ls

/-! ### One step -/

section Step

variable {S : Search} {ls : List (Label n)} {s s' : State n} {l : Label n} {i : Fin n}
  {chunks : List (Fin n × List Match)} {buf : Fin n → List Match}

theorem found_snoc (j : Fin n) : found S j (ls ++ [l]) = found S j ls ++ (l.found S j).toList := by
  unfold found
  rw [List.filterMap_append]
  cases h : l.found S j <;> simp [h]

theorem out_update {w : WorkerState} (hw : w.out = (s.ws i).out) (j : Fin n) :
    (update s.ws i w j).out = (s.ws j).out := by
  by_cases hj : j = i
  · subst hj; rwa [update_self]
  · rw [update_of_ne hj]

theorem Ledger.congr (h : Ledger S ls s chunks buf) (hstdout : s'.stdout = s.stdout)
    (hout : ∀ j, (s'.ws j).out = (s.ws j).out) (hl : ∀ j, l.found S j = none) :
    Ledger S (ls ++ [l]) s' chunks buf where
  stdout := hstdout.trans h.stdout
  out j := (hout j).trans (h.out j)
  found j := by rw [found_snoc, hl]; simpa using h.found j

theorem Ledger.entry (h : Ledger S ls s chunks buf) (dir : PathBuf) (e : Option DirEntry)
    (r : Bytes) (t : Task) :
    Ledger S (ls ++ [.entry i dir e r]) (s.setWorker i t (S.process dir e (s.ws i))) chunks
      (update buf i (buf i ++ (S.matchOf dir e).toList)) where
  stdout := h.stdout
  out j := by
    by_cases hj : j = i
    · subst hj
      simp only [State.setWorker_ws, update_self, Search.process, h.out, Search.records,
        List.flatMap_append]
      cases S.matchOf dir e <;> simp
    · simpa [hj] using h.out j
  found j := by
    rw [found_snoc, ← h.found j]
    by_cases hj : j = i
    · subst hj
      simp [Label.found]
    · have hij : i ≠ j := Ne.symm hj
      simp [Label.found, hj, hij]

theorem Ledger.flushOut (h : Ledger S ls s chunks buf) (t : Task) :
    ∃ chunks' buf', Ledger S (ls ++ [.flushed i]) (s.flushOut i t) chunks' buf' := by
  unfold State.flushOut
  dsimp only
  split_ifs
  · exact ⟨chunks, buf, h.congr rfl (out_update rfl) fun _ => rfl⟩
  · refine ⟨chunks ++ [(i, buf i)], update buf i [], ?_, fun j => ?_, fun j => ?_⟩
    · simp [h.stdout, h.out]
    · by_cases hj : j = i
      · subst hj; simp [Search.records]
      · simpa [hj] using h.out j
    · rw [found_snoc, ← h.found j]
      by_cases hj : j = i
      · subst hj; simp [written, Label.found]
      · have hij : i ≠ j := Ne.symm hj
        simp [written, Label.found, hj, hij]

/-- **Every step of a run keeps the ledger**, unless it ends the process. -/
theorem Move.ledger (hm : Move S i s l s') (h : Ledger S ls s chunks buf)
    (hx : s'.exit = none) : ∃ chunks' buf', Ledger S (ls ++ [l]) s' chunks' buf' := by
  cases hm with
  | pool | unreadable => exact ⟨chunks, buf, h.congr rfl (fun _ => rfl) fun _ => rfl⟩
  | opened | listed => exact ⟨chunks, buf, h.congr rfl (out_update rfl) fun _ => rfl⟩
  | entry => exact ⟨_, _, h.entry _ _ _ _⟩
  | flush | finalFlush => exact h.flushOut _
  | addMatched =>
    rw [State.addMatched_eq]
    exact ⟨chunks, buf, h.congr rfl (out_update rfl) fun _ => rfl⟩
  | addSize =>
    rw [State.addSize_eq]
    exact ⟨chunks, buf, h.congr rfl (out_update rfl) fun _ => rfl⟩
  | fail => cases hx

/-- The length of a buffer suits the task of its worker: it is below the threshold unless a flush
is due, and zero behind the last flush. -/
def Task.Fits (out : Bytes) : Task → Prop
  | .flush _ _ => True
  | .loop | .listing _ _ => out.length < outFlushBytes
  | .addMatched | .addSize | .finished => out = []

theorem outFlushBytes_pos : 0 < outFlushBytes := by decide

theorem Move.fits (hm : Move S i s l s') (h : ∀ j, (s.task j).Fits (s.ws j).out) (j : Fin n) :
    (s'.task j).Fits (s'.ws j).out := by
  by_cases hj : j = i
  · subst hj
    have hi := h j
    cases hm with
    | pool | unreadable | fail => exact hi
    | opened ht | listed ht =>
      rw [ht] at hi
      simpa [Task.Fits] using hi
    | entry ht hor =>
      rw [ht] at hi
      rcases hor with rfl | ⟨rfl, heq | hlt⟩
      · simp [Task.Fits]
      · simpa [Task.Fits, heq] using hi
      · simpa [Task.Fits] using hlt
    | flush => simpa [Task.Fits] using outFlushBytes_pos
    | finalFlush => simp [Task.Fits]
    | addMatched ht | addSize ht =>
      rw [ht] at hi
      simpa [Task.Fits] using hi
  · obtain ⟨ht, -, hw⟩ := hm.frame hj
    rw [ht, hw]
    exact h j

end Step

/-! ### Whole runs -/

variable [NeZero n] {S : Search} {ls : List (Label n)} {s : State n}

theorem exists_ledger (h : (lts S).Run (.init S) ls s) (hx : s.exit = none) :
    ∃ chunks buf, Ledger S ls s chunks buf := by
  refine history (P := fun ls s => s.exit = none → ∃ chunks buf, Ledger S ls s chunks buf) h
    ?_ ?_ hx
  · exact fun _ => ⟨[], fun _ => [], rfl, fun _ => rfl, fun _ => rfl⟩
  · intro ls s i l s' hx ih hm hx'
    obtain ⟨chunks, buf, hl⟩ := ih hx
    exact hm.ledger hl hx'

theorem fits (h : (lts S).Run (.init S) ls s) (i : Fin n) : (s.task i).Fits (s.ws i).out := by
  refine history (P := fun _ s => ∀ i, (s.task i).Fits (s.ws i).out) h ?_ ?_ i
  · exact fun _ => outFlushBytes_pos
  · intro _ s i l s' _ ih hm
    exact hm.fits ih

/-- **Batched output loses, duplicates and tears nothing.**  As long as no write has failed, each
write to stdout is the concatenation of complete records of matches found by one worker, each
record ending in a newline of its own; what a worker has written, followed by what is in its
buffer, are the records of the matches that it has found, in the order found; the buffer of a
worker that is not about to flush is shorter than `OUT_FLUSH_BYTES`; and when all threads have
ended all buffers are empty. -/
theorem output_complete (S : Search) (hc : S.output.countOnly = false) {ls : List (Label n)}
    {s : State n} (h : (lts S).Run (.init S) ls s) (hx : s.exit = none) :
    (∃ (chunks : List (Fin n × List Match)) (buf : Fin n → List Match),
      s.stdout = chunks.map (fun c => (c.1, c.2.flatMap (Match.record S.output))) ∧
      ∀ i, (s.ws i).out = (buf i).flatMap (Match.record S.output) ∧
        written chunks i ++ buf i = found S i ls) ∧
    (∀ m : Match, ∃ line, m.record S.output = line ++ [byte '\n']) ∧
    (∀ i, (∀ dir rest, s.task i ≠ .flush dir rest) → (s.ws i).out.length < outFlushBytes) ∧
    ((∀ i, s.task i = .finished) → ∀ i, (s.ws i).out = []) := by
  have hrec : S.printed = Match.record S.output := by
    funext m
    simp [Search.printed, printed, printPaths, hc]
  refine ⟨?_, Match.record_eq S.output, fun i hi => ?_, fun hf i => ?_⟩
  · obtain ⟨chunks, buf, hl⟩ := exists_ledger h hx
    have hstdout := hl.stdout
    have hout := hl.out
    unfold Search.records at hstdout hout
    rw [hrec] at hstdout hout
    exact ⟨chunks, buf, hstdout, fun i => ⟨hout i, hl.found i⟩⟩
  · have hfit := fits h i
    cases ht : s.task i with
    | flush dir rest => exact absurd ht (hi dir rest)
    | loop | listing => rwa [ht] at hfit
    | addMatched | addSize | finished =>
      rw [ht] at hfit
      rw [show (s.ws i).out = [] from hfit]
      exact outFlushBytes_pos
  · have hfit := fits h i
    rwa [hf i] at hfit

/-- Both workers have ended, and the one match is on stdout. -/
theorem output_complete_small :
    ∃ (ls : List (Label 2)) (s : State 2), (lts small).Run (.init small) ls s ∧
      s.stdout = [(0, [byte 'r', byte '/', byte 'f', byte '\n'])] ∧ ∀ i, (s.ws i).out = [] := by
  obtain ⟨ls, s, -, hr, hs⟩ := LTS.Run.of_exec_map step_of_next
    (show (LTS.exec (State.next small) small.schedule (State.init small)).map
      (fun x => (x.2.stdout, x.2.exit, x.2.task 0, x.2.task 1)) =
        some ([(0, [byte 'r', byte '/', byte 'f', byte '\n'])], none, .finished, .finished) by
      decide)
  simp only [Prod.mk.injEq] at hs
  exact ⟨ls, s, hr, hs.1, (output_complete small rfl hr hs.2.1).2.2.2
    (Fin.forall_fin_two.2 ⟨hs.2.2.1, hs.2.2.2⟩)⟩

end Scheduler

end Pfind
