import Pfind.Queue.Potential
import Pfind.Scheduler.Conservation

/-!
# Every run ends

The remaining work in the tree is measured by a `Valuation` in the natural numbers
(`effort`): each directory pays for its `read_dir` and for a publish section with its broadcast,
each entry for its own step, for a flush, and for being pushed.  Together with the potential of
the workers and of the permits this decreases in every step.

* `Move.variant_lt` : **every step of every worker decreases the variant**.
* `run_bounded` : hence there is a bound on the length of all runs, under any scheduling.
-/

namespace Pfind

open Fs

namespace Scheduler

open Function

variable {n : ℕ}

/-- What directories and entries pay. -/
def effort (n : ℕ) : Valuation ℕ where
  dir _ := Queue.publishCost n + 1
  entry _ _ := 3

/-- The steps that a worker may take without touching the tree. -/
def Task.potential (n : ℕ) (p : Queue.Pc PathBuf) (w : WorkerState) : Task → ℕ
  | .loop => p.potential n + 3
  | .listing _ _ => Queue.publishCost n + w.childDirs.length + 4
  | .flush _ _ => Queue.publishCost n + w.childDirs.length + 5
  | .addMatched => 2
  | .addSize => 1
  | .finished => 0

/-- One more step while the process has not exited: a write may fail. -/
def exitPotential : Option ℕ → ℕ
  | none => 1
  | some _ => 0

/-- The variant: it bounds the number of steps that are still possible. -/
def State.variant (S : Search) (s : State n) : ℕ :=
  s.worth (effort n) S + s.sys.pool.permits +
    ∑ i, (s.task i).potential n (s.sys.pc i) (s.ws i) + exitPotential s.exit

variable {S : Search} {i : Fin n} {s s' : State n} {l : Label n}

theorem length_childDirs_process (dir : PathBuf) (e : Option DirEntry) (w : WorkerState) :
    (S.process dir e w).childDirs.length ≤ w.childDirs.length + 1 := by
  unfold Search.process
  cases S.childOf dir e <;> simp

/-- What a worker does outside the tree is paid for by its potential, by a permit, or by the
directory or entry that the step is about. -/
theorem Move.potential_lt (h : Move S i s l s') (hx : s.exit = none) :
    s'.sys.pool.permits + (s'.task i).potential n (s'.sys.pc i) (s'.ws i) + exitPotential s'.exit <
      l.value (effort n) + s.sys.pool.permits + (s.task i).potential n (s.sys.pc i) (s.ws i) +
        exitPotential s.exit := by
  have hpub : Queue.publishCost n =
      Queue.signalCost n + Queue.broadcastCost n 0 + 2 * n + 10 := rfl
  cases h with
  | pool ht hw hop =>
    obtain ⟨m', p', htr, rfl⟩ := Queue.State.transition_of_op hop
    have hlt := htr.potential_lt hw
    simp only [ht, Task.potential, Queue.State.set_pool, Queue.State.set_pc_self, Label.value]
    omega
  | @unreadable dir ht hpc =>
    have hle := Queue.potential_publish_le (n := n) dir []
    have hwalk : (Queue.Pc.walk dir).potential n = Queue.signalCost n + 1 := rfl
    simp only [ht, hpc, Task.potential, Queue.State.publish, Queue.State.set_pool,
      Queue.State.set_pc_self, Label.value, effort, List.length_nil] at hle ⊢
    omega
  | @opened dir _ ht hpc =>
    have hwalk : (Queue.Pc.walk dir).potential n = Queue.signalCost n + 1 := rfl
    simp only [State.setWorker_sys, State.setWorker_task, State.setWorker_ws, State.setWorker_exit,
      update_self, ht, hpc, Task.potential, Label.value, effort, List.length_nil]
    omega
  | @entry dir e rest t ht hor =>
    have hle := length_childDirs_process (S := S) dir e (s.ws i)
    have ht' : t.potential n (s.sys.pc i) (S.process dir e (s.ws i)) ≤
        Queue.publishCost n + (s.ws i).childDirs.length + 6 := by
      rcases hor with rfl | ⟨rfl, -⟩ <;> simp only [Task.potential] <;> omega
    simp only [State.setWorker_sys, State.setWorker_task, State.setWorker_ws, State.setWorker_exit,
      update_self, ht, Label.value, effort]
    simp only [Task.potential] at ht' ⊢
    omega
  | @listed dir ht =>
    have hle := Queue.potential_publish_le (n := n) dir (s.ws i).childDirs
    simp only [State.setWorker_task, State.setWorker_exit, update_self, ht, Task.potential,
      Queue.State.publish, Queue.State.set_pool, Queue.State.set_pc_self, Label.value]
    omega
  | flush ht => simp [ht, Task.potential, Label.value]
  | finalFlush ht hpc => simp [ht, hpc, Task.potential, Label.value, Queue.Pc.potential]
  | addMatched ht => simp [ht, Task.potential, Label.value]
  | addSize ht => simp [ht, Task.potential, Label.value]
  | fail => simp [hx, exitPotential, Label.value]

/-- **Every step of every worker decreases the variant.** -/
theorem Move.variant_lt (h : Move S i s l s') (hx : s.exit = none) :
    s'.variant S < s.variant S := by
  obtain ⟨rest, h1, h2⟩ := h.exists_sum_eq fun p w t => t.potential n p w
  have hw := h.worth (V := effort n)
  have hlt := h.potential_lt hx
  unfold State.variant
  rw [h1, h2]
  omega

/-- **Workers cannot spin for ever** : for every tree and every number of workers there is a bound
on the number of steps of all runs, whatever the scheduling. -/
theorem run_bounded (S : Search) (n : ℕ) [NeZero n] :
    ∃ N, ∀ ls (s : State n), (lts S).Run (.init S) ls s → ls.length ≤ N := by
  refine ⟨(State.init S : State n).variant S, fun ls s h => ?_⟩
  have hle := h.length_add_le (μ := State.variant S) fun s l s' _ hst => by
    obtain ⟨hx, i, hm⟩ := Step.cases hst
    exact hm.variant_lt hx
  omega

/-- Two workers on a small tree. -/
theorem run_bounded_small :
    ∃ N, ∀ ls (s : State 2), (lts small).Run (.init small) ls s → ls.length ≤ N :=
  run_bounded small 2

end Scheduler

end Pfind
