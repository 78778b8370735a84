import Pfind.Scheduler.Written

/-!
# Few and large writes

A worker writes its buffer when it has reached `OUT_FLUSH_BYTES`, and once more before it ends.

* `Step.entry_full` : a flush is called for only where the buffer has reached the threshold.
* `State.Batched` : the writes that are short, one for each worker at most; `Step.batched`.
* `output_batched` : **the number of writes is bounded by the amount of output and the number of
  workers**, and the size of a buffer by the threshold and the longest record.
-/

namespace Pfind

open Fs

theorem countP_mul_le_length_flatMap {α β : Type*} (f : α → List β) (k : ℕ) (as : List α) :
    as.countP (fun a => decide (k ≤ (f a).length)) * k ≤ (as.flatMap f).length := by
  induction as with
  | nil => simp
  | cons a as ih =>
    rw [List.flatMap_cons, List.length_append, List.countP_cons, Nat.add_mul]
    split_ifs with h
    · have := of_decide_eq_true h
      omega
    · omega

namespace Scheduler

open Function

variable {n : ℕ} {S : Search} {s s' : State n} {l : Label n} {i : Fin n}

theorem Search.le_length_of_walkEntry {dir : PathBuf} {e : Option DirEntry} {w : WorkerState}
    (h : (walkEntry S.fs S.filter S.output dir e w).2 = true) :
    outFlushBytes ≤ (S.process dir e w).out.length := by
  rw [walkEntry_eq] at h
  unfold process matchOf
  cases hm : Pfind.matchOf S.fs S.filter S.output dir e with
  | none => simp [hm, WorkerState.addMatch] at h
  | some m =>
    simp only [hm, WorkerState.addMatch, Bool.and_eq_true, decide_eq_true_eq] at h
    simpa [WorkerState.add, printed] using h.2

theorem Step.entry_full {dir dir' : PathBuf} {e : Option DirEntry} {r : Bytes}
    {rest : List (Option DirEntry)} (h : Step S s (.entry i dir e r) s')
    (ht : s'.task i = .flush dir' rest) : outFlushBytes ≤ (s'.ws i).out.length := by
  cases h with
  | next hn =>
    unfold State.next at hn
    split_ifs at hn
    split at hn
    · split at hn
      · split at hn <;> cases hn
      · cases hn
      · obtain ⟨x, -, hx⟩ := Option.map_eq_some_iff.1 hn
        cases hx
    · cases hn
      simp only [State.setWorker_task, State.setWorker_ws, update_self] at ht ⊢
      split_ifs at ht with hfull
      rw [Search.walkEntry_fst]
      exact Search.le_length_of_walkEntry hfull
    all_goals cases hn

/-! ### Short writes -/

/-- The workers that are behind their last write. -/
def Task.closed : Task → ℕ
  | .addMatched | .addSize | .finished => 1
  | _ => 0

/-- Whether a write is shorter than the threshold. -/
def isShort (w : Fin n × Bytes) : Bool := w.2.length < outFlushBytes

/-- A worker about to flush has a full buffer, and short writes are last writes. -/
structure State.Batched (s : State n) : Prop where
  full : ∀ i dir rest, s.task i = .flush dir rest → outFlushBytes ≤ (s.ws i).out.length
  short : s.stdout.countP isShort ≤
    ∑ i, (s.task i).closed + if s.exit.isSome then 1 else 0

theorem Step.full (h : Step S s l s') (hs : s.Batched) (j : Fin n) {dir : PathBuf}
    {rest : List (Option DirEntry)} (ht : s'.task j = .flush dir rest) :
    outFlushBytes ≤ (s'.ws j).out.length := by
  obtain ⟨-, i, hm⟩ := h.cases
  by_cases hj : j = i
  · subst hj
    cases hm with
    | pool hl | unreadable hl => exact absurd (hl.symm.trans ht) (by simp)
    | entry => exact h.entry_full ht
    | fail => exact hs.full j dir rest ht
    | _ => simp at ht
  · obtain ⟨htask, -, hw⟩ := hm.frame hj
    rw [hw]
    exact hs.full j dir rest (htask ▸ ht)

theorem Move.short (hm : Move S i s l s') (hx : s.exit = none) (hs : s.Batched) :
    s'.stdout.countP isShort ≤ ∑ i, (s'.task i).closed + if s'.exit.isSome then 1 else 0 := by
  have hshort := hs.short
  -- the other workers are as they were: only what worker `i` does to the two sides counts
  obtain ⟨others, h1, h2⟩ := hm.exists_sum_eq fun _ _ t => t.closed
  rw [hx] at hshort
  rw [h2] at hshort
  rw [h1]
  cases hm with
  | pool | unreadable => simpa [hx] using hshort
  | opened ht | listed ht => simpa [hx, ht, Task.closed] using hshort
  | entry ht hor =>
    rcases hor with rfl | ⟨rfl, -⟩ <;> simpa [hx, ht, Task.closed] using hshort
  | flush ht =>
    -- a buffer that has reached the threshold is no short write
    have hfull := hs.full i _ _ ht
    have hlong : (if (s.ws i).out.isEmpty then [] else [(i, (s.ws i).out)]).countP isShort = 0 := by
      split_ifs <;> simp [isShort, hfull]
    rw [State.flushOut_eq]
    simp only [List.countP_append, hlong]
    simpa [hx, ht, Task.closed] using hshort
  | finalFlush ht =>
    -- the last write of a worker may be short, and the worker is behind it for good
    have hone := List.countP_le_length
      (p := isShort) (l := if (s.ws i).out.isEmpty then [] else [(i, (s.ws i).out)])
    have hlen : (if (s.ws i).out.isEmpty then [] else [(i, (s.ws i).out)]).length ≤ 1 := by
      split_ifs <;> simp
    simp only [ht, Task.closed, Option.isSome_none, Bool.false_eq_true, if_false] at hshort
    rw [State.flushOut_eq]
    simp only [List.countP_append, State.setWorker_task, update_self, Task.closed]
    omega
  | addMatched ht =>
    rw [State.addMatched_eq]
    simpa [hx, ht, Task.closed] using hshort
  | addSize ht =>
    rw [State.addSize_eq]
    simpa [hx, ht, Task.closed] using hshort
  | @fail pre code =>
    -- a write that fails may be short, and is the last one of all
    have hone := List.countP_le_length (p := isShort) (l := [(i, pre)])
    simp only [Option.isSome_none, Bool.false_eq_true, if_false] at hshort
    simp only [List.countP_append, Option.isSome_some, if_true]
    simp only [List.length_singleton] at hone
    omega

theorem Step.batched (h : Step S s l s') (hs : s.Batched) : s'.Batched := by
  obtain ⟨hx, i, hm⟩ := h.cases
  exact ⟨fun j _ _ ht => h.full hs j ht, hm.short hx hs⟩

theorem State.Batched.short_le (hs : s.Batched) :
    s.stdout.countP isShort ≤ n + if s.exit.isSome then 1 else 0 := by
  have hclosed : ∑ i, (s.task i).closed ≤ n := by
    have hle := Finset.sum_le_card_nsmul Finset.univ (fun i => (s.task i).closed) 1 fun i _ => by
      cases s.task i <;> simp [Task.closed]
    simpa using hle
  exact hs.short.trans (Nat.add_le_add_right hclosed _)

theorem State.Batched.writes_le (hs : s.Batched) :
    s.stdout.length * outFlushBytes ≤
      s.output.length + (n + if s.exit.isSome then 1 else 0) * outFlushBytes := by
  have hlong := countP_mul_le_length_flatMap Prod.snd outFlushBytes s.stdout
  have hsplit : s.stdout.length = s.stdout.countP isShort +
      s.stdout.countP fun w => decide (outFlushBytes ≤ w.2.length) := by
    rw [List.length_eq_countP_add_countP isShort]
    simp [isShort]
  calc s.stdout.length * outFlushBytes
      = s.stdout.countP isShort * outFlushBytes +
        s.stdout.countP (fun w => decide (outFlushBytes ≤ w.2.length)) * outFlushBytes := by
        rw [hsplit, Nat.add_mul]
    _ ≤ (n + if s.exit.isSome then 1 else 0) * outFlushBytes + s.output.length :=
        Nat.add_le_add (Nat.mul_le_mul_right _ hs.short_le) hlong
    _ = s.output.length + (n + if s.exit.isSome then 1 else 0) * outFlushBytes := Nat.add_comm ..

/-! ### Buffers -/

theorem Move.out_lt (hm : Move S i s l s') {B : ℕ} (hfit : (s.task i).Fits (s.ws i).out)
    (hlt : (s.ws i).out.length < outFlushBytes + B)
    (hrec : ∀ m ∈ l.pick S.matchOf, (S.printed m).length ≤ B) :
    (s'.ws i).out.length < outFlushBytes + B := by
  have hpos : 0 < outFlushBytes + B := Nat.add_pos_left outFlushBytes_pos B
  cases hm with
  | pool | unreadable | fail => exact hlt
  | opened | listed => simpa using hlt
  | @entry dir e rest t ht =>
    rw [ht] at hfit
    -- an entry is looked at with less than a full buffer
    have hshort : (s.ws i).out.length < outFlushBytes := hfit
    simp only [State.setWorker_ws, update_self, Search.process, List.length_append]
    cases hmatch : S.matchOf dir e with
    | none => simpa using Nat.lt_add_right B hshort
    | some m => exact Nat.add_lt_add_of_lt_of_le hshort (hrec m hmatch)
  | flush | finalFlush =>
    rw [State.flushOut_eq]
    simpa using hpos
  | addMatched =>
    rw [State.addMatched_eq]
    simpa using hlt
  | addSize =>
    rw [State.addSize_eq]
    simpa using hlt

/-! ### Whole runs -/

variable [NeZero n] {ls : List (Label n)}

/-- **Every reachable state is batched.** -/
theorem batched (h : (lts S).Reachable (.init S) s) : s.Batched :=
  h.invariant ⟨by simp [State.init], by simp [State.init]⟩ fun _ _ _ _ hs hst => hst.batched hs

/-- **A buffer gets no longer than the threshold and one record.** -/
theorem out_lt (h : (lts S).Run (.init S) ls s) {B : ℕ}
    (hB : ∀ m ∈ S.traverse S.root, (S.printed m).length ≤ B) (i : Fin n) :
    (s.ws i).out.length < outFlushBytes + B := by
  have hmem : ∀ m ∈ hits S ls, (S.printed m).length ≤ B := fun m hm =>
    hB m ((pick_subperm S.matchOf h).subset hm)
  refine (history (P := fun ls s => (∀ m ∈ hits S ls, (S.printed m).length ≤ B) →
    ∀ j, (s.task j).Fits (s.ws j).out ∧ (s.ws j).out.length < outFlushBytes + B) h ?_ ?_ hmem i).2
  · exact fun _ j => ⟨outFlushBytes_pos, Nat.add_pos_left outFlushBytes_pos B⟩
  · intro ls s i l s' _ ih hm hB' j
    rw [hits, List.filterMap_append] at hB'
    have hold := ih fun m hm => hB' m (List.mem_append_left _ hm)
    refine ⟨hm.fits (fun j => (hold j).1) j, ?_⟩
    by_cases hj : j = i
    · subst hj
      refine hm.out_lt (hold j).1 (hold j).2 fun m hp => hB' m (List.mem_append_right _ ?_)
      rw [List.filterMap_cons_some hp]
      exact List.mem_cons_self
    · rw [(hm.frame hj).2.2]
      exact (hold j).2

end Scheduler

end Pfind
