import Pfind.Queue.Space
import Pfind.Scheduler.Worklist

/-!
# How many directories are pending

The walk of a directory publishes its subdirectories and nothing else (`simulation_children`), so
that what `Queue.Space` proves of graded walks holds of the run, with the depth of a directory
below the root for its level.

* `deques_bounded` : **the number of pending directories is bounded by the number of workers, the
  number of subdirectories of one directory and the depth of the tree**, not by its size.
-/

namespace Pfind

open Fs

namespace Scheduler

open Function

variable {n : ℕ}

/-- The subdirectories found in a directory, and those still to come, are all of them. -/
def Task.Gathers (S : Search) (w : WorkerState) : Task → Prop
  | .listing dir rest | .flush dir rest =>
    w.childDirs ++ rest.filterMap (S.childOf dir) = S.tree.children dir
  | _ => True

variable {S : Search} {i : Fin n} {s s' : State n} {l : Label n}

theorem Move.gathers (h : Move S i s l s') (hs : ∀ j, (s.task j).Gathers S (s.ws j)) (j : Fin n) :
    (s'.task j).Gathers S (s'.ws j) := by
  by_cases hj : j = i
  · subst hj
    have hi := hs j
    cases h with
    | pool | unreadable | fail => exact hi
    | @opened dir entries ht hpc hrd =>
      simp only [State.setWorker_task, State.setWorker_ws, update_self]
      exact dirsInHand_opened hrd (s.sys.pc j) (s.ws j)
    | @entry dir e es t ht hor =>
      rw [ht] at hi
      have hstep := (dirsInHand_process dir e es (s.sys.pc j) (s.ws j)).trans hi
      simp only [State.setWorker_task, State.setWorker_ws, update_self]
      -- the flush that an entry may end in leaves the subdirectories alone
      rcases hor with rfl | ⟨rfl, -⟩ <;> exact hstep
    | flush ht =>
      rw [ht] at hi
      simpa [Task.Gathers] using hi
    | _ => simp [Task.Gathers]
  · obtain ⟨ht, -, hw⟩ := h.frame hj
    rw [ht, hw]
    exact hs j

/-- **The pool goes through steps of the system of workers whose walks publish the
subdirectories.** -/
theorem simulation_children (S : Search) : LTS.Simulation (lts (n := n) S)
    (Queue.lts (.ofFun S.tree.children) .sc)
    fun s t => t = s.sys ∧ s.Placed ∧ ∀ i, (s.task i).Gathers S (s.ws i) where
  step := by
    rintro s _ l s' ⟨rfl, hs, hg⟩ hst
    obtain ⟨-, i, hm⟩ := hst.cases
    have hs' := hm.placed hs
    have hg' := hm.gathers hg
    cases hm with
    | pool _ _ hop => exact Or.inr ⟨_, _, .op rfl hop, rfl, hs', hg'⟩
    | unreadable _ hpc hrd =>
      exact Or.inr ⟨_, _, .walk hpc (children_unreadable hrd).symm, rfl, hs', hg'⟩
    | @listed dir ht =>
      have hat := hs i
      have hall := hg i
      rw [ht] at hat hall
      -- at the end of the listing nothing is still to come, and all of them are published
      have hch : (s.ws i).childDirs = S.tree.children dir := by
        rwa [Task.Gathers, List.filterMap_nil, List.append_nil] at hall
      exact Or.inr ⟨_, _, .walk hat hch, rfl, hs', hg'⟩
    | flush | finalFlush | addMatched | addSize => exact Or.inl ⟨by simp, hs', hg'⟩
    | _ => exact Or.inl ⟨rfl, hs', hg'⟩

variable [NeZero n]

theorem sys_reachable_children (h : (lts S).Reachable (.init S) s) :
    (Queue.lts (.ofFun S.tree.children) .sc).Reachable (.init S.seeds) s.sys := by
  obtain ⟨_, hr, rfl, -⟩ :=
    (simulation_children S).reachable h ⟨rfl, placed_init S, fun _ => trivial⟩
  rwa [init_sys] at hr

/-- The width of a level: one root, and then the subdirectories of one directory. -/
def levelWidth (F : ℕ) : ℕ → ℕ
  | 0 => 1
  | _ + 1 => F

omit [NeZero n] in
theorem sum_levelWidth (F H : ℕ) : ∑ k ∈ Finset.range (H + 1), levelWidth F k = F * H + 1 := by
  rw [Finset.sum_range_succ']
  simp [levelWidth, Nat.mul_comm]

omit [NeZero n] in
theorem graded_children {F : ℕ}
    (hF : ∀ dir ∈ S.tree.preorder S.root, (S.tree.children dir).length ≤ F) :
    (Queue.Walk.ofFun S.tree.children).Graded (fun k dir => dir ∈ S.tree.level S.root k)
      (levelWidth F) := by
  rintro k dir _ hk rfl
  exact ⟨hF dir (Unfolding.level_subset_preorder hk), fun c hc => Unfolding.level_succ hk hc⟩

theorem holds_seeds (S : Search) (F : ℕ) (i : Fin n) :
    Queue.Holds (fun k dir => dir ∈ S.tree.level S.root k) (levelWidth F) .pop (S.seeds i) := by
  by_cases hi : i = 0
  -- worker 0 holds the root, which is the only directory at level 0
  · refine ⟨[(0, S.root)], ⟨List.pairwise_singleton _ _, ?_, fun k => ?_⟩, by
      simp [Queue.Pc.Owns, Search.seeds, hi]⟩
    · simp [Unfolding.level]
    · cases k <;> simp [levelWidth]
  · refine ⟨[], ⟨.nil, by simp, fun k => Nat.zero_le _⟩, ?_⟩
    simp [Queue.Pc.Owns, Search.seeds, hi]

/-- **The pool is bounded by the depth of the tree, not by its size.**  Where no directory has more
than `F` subdirectories to be walked, a deque holds at most `F` directories for each level below
the root, in the order of their depth, so that a thief takes one that is closest to the root; and
`dir_pending`, with the directories in hand and the children announced, stays within `n` times
that. -/
theorem deques_bounded (S : Search) {F : ℕ}
    (hF : ∀ dir ∈ S.tree.preorder S.root, (S.tree.children dir).length ≤ F) {s : State n}
    (h : (lts S).Reachable (.init S) s) :
    (∀ i, ∃ xs : List (ℕ × PathBuf), xs.map Prod.snd = (s.sys.pool.deque i).items ∧
      xs.Pairwise (fun a b => a.1 ≤ b.1) ∧ (∀ a ∈ xs, a.2 ∈ S.tree.level S.root a.1) ∧
      (∀ k, (xs.countP fun a => a.1 = k) ≤ max F 1) ∧
      xs.length ≤ F * S.fs.height S.root + 1) ∧
    s.sys.pool.dirPending ≤ n * (F * S.fs.height S.root + 1) := by
  have hr := sys_reachable_children h
  have hW := graded_children hF
  have hH : ∀ k dir, dir ∈ S.tree.level S.root k → k ≤ S.fs.height S.root := fun k dir hk =>
    (Nat.le_add_left _ _).trans (Unfolding.height_level hk)
  refine ⟨fun i => ?_, ?_⟩
  · obtain ⟨xs, hxs, hitems⟩ := Queue.deque_layered hW (holds_seeds S F) hr i
    refine ⟨xs, hitems, hxs.sorted, hxs.at_level, fun k => (hxs.width k).trans ?_, ?_⟩
    · cases k
      · exact Nat.le_max_right _ _
      · exact Nat.le_max_left _ _
    · rw [← sum_levelWidth]
      exact hxs.length_le fun a ha => hH a.1 a.2 (hxs.at_level a ha)
  · rw [← sum_levelWidth]
    exact Queue.dirPending_le hW (holds_seeds S F) hH hr

theorem small_children (dir : PathBuf) : (small.tree.children dir).length ≤ 1 := by
  by_cases h : dir = [byte 'r']
  · subst h
    decide
  · by_cases hd : dir = [byte 'r', byte '/', byte 'd']
    · subst hd
      decide
    · simp [Search.tree, FileSystem.listing, small, small.fs, h, hd]

/-- Both directories are pending: `r/d` is in a deque and `r` in hand. -/
theorem deques_bounded_small :
    ∃ s : State 2, (lts small).Reachable (.init small) s ∧ s.sys.pool.dirPending = 2 ∧
      s.sys.pool.dirPending ≤ 2 * (1 * small.fs.height small.root + 1) := by
  obtain ⟨ls, s, -, hr, hs⟩ := LTS.Run.of_exec_map step_of_next
    (show (LTS.exec (State.next small) (small.schedule.take 9) (State.init small)).map
      (fun x => x.2.sys.pool.dirPending) = some 2 by decide)
  exact ⟨s, hr.reachable, hs,
    (deques_bounded small (fun dir _ => small_children dir) hr.reachable).2⟩

end Scheduler

end Pfind
