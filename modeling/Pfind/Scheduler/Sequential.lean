import Pfind.Scheduler.Conservation

/-!
# The parallel run and the sequential traversal

`Search.traverse` is what a plain sequential traversal finds: the matches among the entries of a
directory, and then those of each of its subdirectories that is not skipped (`traverse_eq`).

* `hits_perm_traverse` : by `conservation`, a run in which all threads have ended has found the
  same matches, each as often.
* `count_eq`, `size_modEq` : the counters of the run and of the workers add up to the number and
  to the sizes of the matches found so far.
* `run_eq_traverse` : **the run computes what the sequential traversal computes**, however the
  directories were distributed among the workers.
-/

namespace Pfind

open Fs

namespace Scheduler

open Function

variable {n : ℕ}

/-! ### The sequential traversal -/

/-- The matches among the entries of a directory. -/
def Search.matchesIn (S : Search) (dir : PathBuf) : List Match :=
  (S.fs.listing dir).filterMap (S.matchOf dir)

/-- The matches that a sequential traversal from `dir` finds. -/
def Search.traverse (S : Search) (dir : PathBuf) : List Match :=
  (S.tree.preorder dir).flatMap S.matchesIn

/-- The traversal lists a directory once, and enters every subdirectory that is not skipped. -/
theorem traverse_eq (S : Search) (dir : PathBuf) : S.traverse dir =
    S.matchesIn dir ++ ((S.fs.listing dir).filterMap (S.childOf dir)).flatMap S.traverse := by
  rw [Search.traverse, Unfolding.preorder_eq, List.flatMap_cons, List.flatMap_assoc]
  rfl

/-! ### The matches of a run -/

/-- The matches found in a run. -/
def hits (S : Search) (ls : List (Label n)) : List Match := ls.filterMap (Label.pick S.matchOf)

/-- The record appended to a buffer in a step. -/
def Label.appended : Label n → Option Bytes
  | .entry _ _ _ r => if r.isEmpty then none else some r
  | _ => none

/-- The records appended to the buffers in a run. -/
def appended (ls : List (Label n)) : List Bytes := ls.filterMap Label.appended

variable {S : Search} {ls : List (Label n)} {s s' : State n} {l : Label n} {i : Fin n}

/-! ### The counters -/

/-- The matches counted so far, by the run and by its workers. -/
def State.counted (s : State n) : ℕ := s.matched + ∑ i, (s.ws i).localCount

/-- The sizes added up so far, by the run and by its workers. -/
def State.sized (s : State n) : ℕ := s.totalSize.toNat + ∑ i, (s.ws i).localSize.toNat

/-- The known size of a match, as a number. -/
def Match.bytes (m : Match) : ℕ := m.known.toNat

theorem Move.counted (h : Move S i s l s') :
    s'.counted = s.counted + (l.pick S.matchOf).toList.length := by
  obtain ⟨rest, h1, h2⟩ := h.exists_sum_eq fun _ w _ => w.localCount
  unfold State.counted
  rw [h1, h2]
  cases h with
  | entry =>
    simp only [State.setWorker_ws, State.setWorker_matched, update_self, Search.process, Label.pick]
    omega
  | addMatched =>
    simp only [State.addMatched_eq, State.setWorker_ws, update_self, Label.pick,
      Option.toList_none, List.length_nil]
    omega
  | _ => simp [Label.pick]

theorem toNat_add_modEq (a b : UInt64) : (a + b).toNat ≡ a.toNat + b.toNat [MOD 2 ^ 64] := by
  rw [UInt64.toNat_add]
  exact Nat.mod_modEq _ _

theorem Move.sized (h : Move S i s l s') :
    s'.sized ≡ s.sized + ((l.pick S.matchOf).toList.map Match.bytes).sum [MOD 2 ^ 64] := by
  obtain ⟨rest, h1, h2⟩ := h.exists_sum_eq fun _ w _ => w.localSize.toNat
  unfold State.sized
  rw [h1, h2]
  cases h with
  | @entry dir e =>
    have hm : ((S.matchOf dir e).elim 0 Match.known).toNat =
        ((S.matchOf dir e).toList.map Match.bytes).sum := by
      cases S.matchOf dir e <;> simp [Match.bytes]
    simp only [State.setWorker_ws, State.setWorker_totalSize, update_self, Search.process,
      Label.pick, ← hm]
    calc s.totalSize.toNat + (((s.ws i).localSize +
            (S.matchOf dir e).elim 0 Match.known).toNat + rest)
        ≡ s.totalSize.toNat + (((s.ws i).localSize.toNat +
            ((S.matchOf dir e).elim 0 Match.known).toNat) + rest) [MOD 2 ^ 64] :=
          ((toNat_add_modEq _ _).add_right _).add_left _
      _ = _ := by omega
  | addSize =>
    simp only [State.addSize_eq, State.setWorker_ws, update_self, Label.pick,
      Option.toList_none, List.map_nil, List.sum_nil, UInt64.toNat_zero]
    calc (s.totalSize + (s.ws i).localSize).toNat + (0 + rest)
        ≡ s.totalSize.toNat + (s.ws i).localSize.toNat + (0 + rest) [MOD 2 ^ 64] :=
          (toNat_add_modEq _ _).add_right _
      _ = _ := by omega
  | _ => simp [Label.pick, Nat.ModEq]

/-- What a worker on its way out has already added to the counters of the run. -/
def Task.Settled (w : WorkerState) : Task → Prop
  | .addSize => w.localCount = 0
  | .finished => w.localCount = 0 ∧ w.localSize = 0
  | _ => True

theorem Move.settled (h : Move S i s l s') (hs : ∀ j, (s.task j).Settled (s.ws j)) (j : Fin n) :
    (s'.task j).Settled (s'.ws j) := by
  by_cases hj : j = i
  · subst hj
    have hi := hs j
    cases h with
    | pool | unreadable | fail => exact hi
    | entry ht hor => rcases hor with rfl | ⟨rfl, -⟩ <;> simp [Task.Settled]
    | addSize ht =>
      rw [ht] at hi
      simpa [Task.Settled] using hi
    | _ => simp [Task.Settled]
  · obtain ⟨ht, -, hw⟩ := h.frame hj
    rw [ht, hw]
    exact hs j

theorem Move.appended (h : Move S i s l s') (hc : S.output.countOnly = false) :
    l.appended = (l.pick S.matchOf).map (Match.record S.output) := by
  cases h with
  | @entry dir e =>
    cases hm : S.matchOf dir e with
    | none => simp [Label.appended, Label.pick, hm]
    | some m =>
      have hp : S.printed m = m.record S.output := by
        simp [Search.printed, printed, printPaths, hc]
      obtain ⟨line, hl⟩ := m.record_eq S.output
      simp [Label.appended, Label.pick, hm, hp, hl]
  | _ => rfl

section Runs

variable [NeZero n]

/-- **A run in which all threads have ended has found what the traversal finds.** -/
theorem hits_perm_traverse (h : (lts S).Run (.init S) ls s) (hf : ∀ i, s.task i = .finished) :
    (hits S ls).Perm (S.traverse S.root) := pick_perm S.matchOf h hf

/-- The counters of the run and of the workers hold the number of the matches found. -/
theorem count_eq (h : (lts S).Run (.init S) ls s) : s.counted = (hits S ls).length := by
  refine history (P := fun ls s => s.counted = (hits S ls).length) h ?_ ?_
  · simp [State.counted, State.init, WorkerState.new, hits]
  · intro ls s i l s' _ ih hm
    rw [hm.counted, ih, hits, hits, List.filterMap_append, List.length_append]
    cases hl : l.pick S.matchOf <;> simp [hl]

/-- They hold the sum of their known sizes, modulo `2 ^ 64`. -/
theorem size_modEq (h : (lts S).Run (.init S) ls s) :
    s.sized ≡ ((hits S ls).map Match.bytes).sum [MOD 2 ^ 64] := by
  refine history (P := fun ls s => s.sized ≡ ((hits S ls).map Match.bytes).sum [MOD 2 ^ 64]) h
    ?_ ?_
  · simp [State.sized, State.init, WorkerState.new, hits, Nat.ModEq]
  · intro ls s i l s' _ ih hm
    have hsum : ((hits S (ls ++ [l])).map Match.bytes).sum =
        ((hits S ls).map Match.bytes).sum + ((l.pick S.matchOf).toList.map Match.bytes).sum := by
      rw [hits, hits, List.filterMap_append, List.map_append, List.sum_append]
      cases hl : l.pick S.matchOf <;> simp [hl]
    rw [hsum]
    exact hm.sized.trans (ih.add_right _)

theorem settled (h : (lts S).Run (.init S) ls s) (i : Fin n) : (s.task i).Settled (s.ws i) := by
  refine history (P := fun _ s => ∀ i, (s.task i).Settled (s.ws i)) h ?_ ?_ i
  · exact fun _ => trivial
  · intro _ s i l s' _ ih hm
    exact hm.settled ih

theorem appended_eq (h : (lts S).Run (.init S) ls s) (hc : S.output.countOnly = false) :
    Scheduler.appended ls = (hits S ls).map (Match.record S.output) := by
  refine history (P := fun ls _ => Scheduler.appended ls = (hits S ls).map _) h rfl ?_
  intro ls s i l s' _ ih hm
  have hl := hm.appended hc
  unfold Scheduler.appended hits at ih ⊢
  rw [List.filterMap_append, List.filterMap_append, List.map_append, ih]
  cases hh : l.pick S.matchOf <;> simp [hl, hh]

/-- **The parallel run computes what a plain sequential traversal computes.**  When all threads
have ended, `matched` is the number of the matches of the traversal, `total_size` the sum of their
known sizes modulo `2 ^ 64`, and, unless only the count is asked for, the records appended to the
buffers are their records, each as often as the traversal finds it. -/
theorem run_eq_traverse (S : Search) {ls : List (Label n)} {s : State n}
    (h : (lts S).Run (.init S) ls s) (hf : ∀ i, s.task i = .finished) :
    s.matched = (S.traverse S.root).length ∧
      s.totalSize.toNat = ((S.traverse S.root).map Match.bytes).sum % 2 ^ 64 ∧
      (S.output.countOnly = false →
        (Scheduler.appended ls : Multiset Bytes) =
          (S.traverse S.root).map (Match.record S.output)) := by
  have hperm := hits_perm_traverse h hf
  have hlocal : ∀ i, (s.ws i).localCount = 0 ∧ (s.ws i).localSize = 0 := fun i => by
    have hi := settled h i
    rwa [hf i] at hi
  refine ⟨?_, ?_, fun hc => ?_⟩
  · have hcount := count_eq h
    simp only [State.counted, hlocal, Finset.sum_const_zero, add_zero] at hcount
    rw [hcount, hperm.length_eq]
  · have hsize := size_modEq h
    simp only [State.sized, hlocal, UInt64.toNat_zero, Finset.sum_const_zero, add_zero] at hsize
    rw [← (hperm.map Match.bytes).sum_eq]
    exact (Nat.mod_eq_of_lt s.totalSize.toNat_lt).symm.trans hsize
  · rw [appended_eq h hc]
    exact Multiset.coe_eq_coe.2 (hperm.map _)

/-- Both workers have ended; the file `r/f` of three bytes is the only match. -/
theorem run_eq_traverse_small :
    ∃ (ls : List (Label 2)) (s : State 2), (lts small).Run (.init small) ls s ∧
      s.matched = 1 ∧ s.totalSize = 3 ∧ s.matched = (small.traverse small.root).length := by
  obtain ⟨ls, s, -, hr, hs⟩ := LTS.Run.of_exec_map step_of_next
    (show (LTS.exec (State.next small) small.schedule (State.init small)).map
      (fun x => (x.2.matched, x.2.totalSize, x.2.task 0, x.2.task 1)) =
        some (1, 3, .finished, .finished) by decide)
  simp only [Prod.mk.injEq] at hs
  exact ⟨ls, s, hr, hs.1, hs.2.1,
    (run_eq_traverse small hr (Fin.forall_fin_two.2 ⟨hs.2.2.1, hs.2.2.2⟩)).1⟩

end Runs

end Scheduler

end Pfind
