import Pfind.Scheduler.Conservation
import Pfind.Tree.Worklist

/-!
# The run as a worklist algorithm

Everything that `Scheduler::run` does about directories, for any number of workers and in any
order, is to take one of those found and not yet read, to read it, and to find its subdirectories.

* `State.frontier` : the directories found and not yet read: those in the deques, those in the
  hands of a worker on its way to `read_dir`, those found in a directory or announced and not yet
  pushed, and those that a worker has still to come across in the directory it is in.
* `worklist_refinement` : **the calls of `read_dir` are the steps of `Unfolding.worklist`**; the
  parking, the sweeps, the counters and the output are no steps at all.
* `reads_worklist` : hence, in any run, every directory is read behind its parent, and none twice.
-/

namespace Pfind

open Fs

namespace Scheduler

open Function

variable {n : ℕ}

/-- The directory for which `read_dir` was called in a step. -/
def Label.read : Label n → Option PathBuf
  | .opened _ dir | .unreadable _ dir => some dir
  | _ => none

/-- The directories for which `read_dir` was called in a run, in order. -/
def reads (ls : List (Label n)) : List PathBuf := ls.filterMap Label.read

/-- The directories that a worker has in hand, in the order in which it is going to push them. -/
def dirsInHand (S : Search) (p : Queue.Pc PathBuf) (w : WorkerState) : Task → List PathBuf
  | .loop => toWalk p
  | .listing dir rest | .flush dir rest => w.childDirs ++ rest.filterMap (S.childOf dir)
  | _ => []

/-- The directories found and not yet read. -/
def State.frontier (S : Search) (s : State n) : Multiset PathBuf :=
  s.sys.pool.queued + ∑ i, (dirsInHand S (s.sys.pc i) (s.ws i) (s.task i) : Multiset PathBuf)

variable {S : Search} {i : Fin n} {s s' : State n} {l : Label n} {ls : List (Label n)}

theorem dirsInHand_opened {dir : PathBuf} {entries : List (Option DirEntry)}
    (h : S.fs.readDir dir = some entries) (p : Queue.Pc PathBuf) (w : WorkerState) :
    dirsInHand S p { w with childDirs := [] } (.listing dir entries) = S.tree.children dir := by
  simp [dirsInHand, Search.tree, FileSystem.listing, h]

theorem children_unreadable {dir : PathBuf} (h : S.fs.readDir dir = none) :
    S.tree.children dir = [] := by
  simp [Search.tree, FileSystem.listing, h]

theorem dirsInHand_process (dir : PathBuf) (e : Option DirEntry) (rest : List (Option DirEntry))
    (p : Queue.Pc PathBuf) (w : WorkerState) :
    dirsInHand S p (S.process dir e w) (.listing dir rest) =
      dirsInHand S p w (.listing dir (e :: rest)) := by
  simp only [dirsInHand, Search.process, List.append_assoc, List.append_cancel_left_eq]
  cases hc : S.childOf dir e <;> simp [hc]

theorem Move.frontier (h : Move S i s l s') :
    (S.tree.worklist).Moves (s.frontier S) l.read (s'.frontier S) := by
  -- what the other workers have in hand does not change
  obtain ⟨rest, h1, h2⟩ := h.exists_sum_eq
    fun p w t => (dirsInHand S p w t : Multiset PathBuf)
  unfold State.frontier
  rw [h1, h2]
  cases h with
  | pool ht hw hop =>
    obtain ⟨m', p', htr, rfl⟩ := Queue.State.transition_of_op hop
    show _ = _
    simp only [ht, dirsInHand, Queue.State.set_pc_self, Queue.State.set_pool, ← add_assoc]
    rw [toWalk_transition htr hw]
  -- a directory that cannot be read is visited all the same, and has no children
  | @unreadable dir ht hpc hrd =>
    refine ⟨s.sys.pool.queued + rest, ?_, ?_⟩
    · simp only [ht, hpc, dirsInHand, toWalk, Multiset.coe_singleton, ← Multiset.singleton_add]
      ac_rfl
    · simp [ht, dirsInHand, Queue.State.publish, toWalk_publish, children_unreadable hrd]
  | @opened dir entries ht hpc hrd =>
    refine ⟨s.sys.pool.queued + rest, ?_, ?_⟩
    · simp only [ht, hpc, dirsInHand, toWalk, Multiset.coe_singleton, ← Multiset.singleton_add]
      ac_rfl
    · simp only [State.setWorker_sys, State.setWorker_task, State.setWorker_ws, update_self,
        dirsInHand_opened hrd]
      ac_rfl
  | @entry dir e es t ht hor =>
    have ht' : dirsInHand S (s.sys.pc i) (S.process dir e (s.ws i)) t =
        dirsInHand S (s.sys.pc i) (s.ws i) (s.task i) := by
      rw [ht, ← dirsInHand_process]
      rcases hor with rfl | ⟨rfl, -⟩ <;> rfl
    show _ = _
    simp only [State.setWorker_sys, State.setWorker_task, State.setWorker_ws, update_self, ht']
  | @listed dir ht =>
    show _ = _
    simp [ht, dirsInHand, Queue.State.publish, toWalk_publish]
  | flush ht =>
    show _ = _
    simp [ht, dirsInHand]
  | finalFlush ht hpc =>
    show _ = _
    simp [ht, hpc, dirsInHand, toWalk]
  | addMatched ht =>
    show _ = _
    simp [ht, dirsInHand]
  | addSize ht =>
    show _ = _
    simp [ht, dirsInHand]
  | fail => rfl

variable [NeZero n]

theorem frontier_init (S : Search) : (State.init S : State n).frontier S = {S.root} := by
  have hq : (Queue.State.init S.seeds : Queue.State n PathBuf).pool.queued = {S.root} := by
    simp only [Queue.State.init, Queue.Pool.seeded, Queue.Pool.queued, Deque.total, Deque.bag,
      Search.seeds]
    rw [Finset.sum_eq_single 0] <;> simp +contextual
  rw [State.frontier, init_sys, hq]
  simp [Queue.State.init, State.init, dirsInHand, toWalk]

/-- **The calls of `read_dir` are the steps of a worklist algorithm.** -/
theorem worklist_refinement (S : Search) : LTS.Refinement (lts (n := n) S) S.tree.worklist
    Label.read (.init S) fun s t => t = s.frontier S where
  step := by
    rintro s _ l s' - rfl hst
    obtain ⟨-, i, hm⟩ := hst.cases
    exact ⟨_, hm.frontier, rfl⟩

theorem reads_run (h : (lts S).Run (.init S) ls s) :
    S.tree.worklist.Run {S.root} (reads ls) (s.frontier S) := by
  obtain ⟨_, hr, rfl⟩ := (worklist_refinement S).run h rfl
  rwa [frontier_init] at hr

theorem frontier_finished (h : (lts S).Reachable (.init S) s) (hf : ∀ i, s.task i = .finished) :
    s.frontier S = 0 := by
  obtain ⟨hr, hs⟩ := sys_reachable h
  -- a worker that has returned has seen `dir_pending` at zero, and it stays so
  have hret : s.sys.pc 0 = .returned := by
    have h0 := hs 0
    rw [hf 0] at h0
    exact h0
  have hz := Queue.dirPending_of_quitting hr (Or.inr ⟨0, by rw [hret]; trivial⟩)
  simp [State.frontier, ((Queue.counter_exact hr).of_zero hz).1, hf, dirsInHand]

theorem reads_le (h : (lts S).Run (.init S) ls s) :
    (reads ls : Multiset PathBuf) ≤ S.tree.preorder S.root := by
  have hadd := Unfolding.worklist_add (reads_run h)
  rw [Multiset.singleton_bind] at hadd
  rw [← hadd]
  exact Multiset.le_add_right _ _

theorem reads_perm (h : (lts S).Run (.init S) ls s) (hf : ∀ i, s.task i = .finished) :
    (reads ls).Perm (S.tree.preorder S.root) := by
  have hw := reads_run h
  rw [frontier_finished h.reachable hf] at hw
  exact Unfolding.worklist_perm hw

/-- **Every interleaving reads the directories of the tree in an order of a worklist algorithm.**
The calls of `read_dir`, for any number of workers, are a run of that algorithm from the root to
the directories found and not yet read; so every directory but the root is read behind its parent,
the directories read and those below the ones not yet read are all those of the tree, and when all
threads have ended every directory of the tree has been read exactly once. -/
theorem reads_worklist (S : Search) {ls : List (Label n)} {s : State n}
    (h : (lts S).Run (.init S) ls s) :
    S.tree.worklist.Run {S.root} (reads ls) (s.frontier S) ∧
      (∀ ys dir zs, reads ls = ys ++ dir :: zs →
        dir = S.root ∨ ∃ parent ∈ ys, dir ∈ S.tree.children parent) ∧
      (reads ls : Multiset PathBuf) +
          (s.frontier S).bind (fun dir => (S.tree.preorder dir : Multiset PathBuf)) =
        S.tree.preorder S.root ∧
      ((∀ i, s.task i = .finished) → (reads ls).Perm (S.tree.preorder S.root)) := by
  have hw := reads_run h
  refine ⟨hw, fun ys dir zs he => ?_, ?_, reads_perm h⟩
  · exact (Unfolding.exists_parent hw ys zs he).imp_left Multiset.mem_singleton.1
  · rw [Unfolding.worklist_add hw, Multiset.singleton_bind]

/-- Two workers read `r`, and then `r/d`. -/
theorem reads_worklist_small :
    ∃ (ls : List (Label 2)) (s : State 2), (lts small).Run (.init small) ls s ∧
      reads ls = [[byte 'r'], [byte 'r', byte '/', byte 'd']] ∧
      (reads ls).Perm (small.tree.preorder small.root) := by
  obtain ⟨ls, s, -, hr, hs⟩ := LTS.Run.of_exec_map step_of_next
    (show (LTS.exec (State.next small) small.schedule (State.init small)).map
      (fun x => (reads x.1, x.2.task 0, x.2.task 1)) =
        some ([[byte 'r'], [byte 'r', byte '/', byte 'd']], .finished, .finished) by decide)
  simp only [Prod.mk.injEq] at hs
  exact ⟨ls, s, hr, hs.1, (reads_worklist small hr).2.2.2 (Fin.forall_fin_two.2 hs.2)⟩

end Scheduler

end Pfind
