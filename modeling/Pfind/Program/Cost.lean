import Mathlib.Tactic.Ring
import Pfind.Program.Outcome

/-!
# What a search costs

The number of steps of the whole program, counted in accesses to the pool, calls of `read_dir`,
entries processed, flushes and additions to the counters, is linear in the size of the tree.  So
waiting, stealing and waking up cost no more than the directories themselves, however the steps of
the workers are interleaved.

* `variant_init` : what the variant amounts to at the start.
* `program_cost` : **a bound on the number of steps**, of second degree in the number of workers for
  each directory and constant for each entry.
-/

namespace Pfind

open Fs

namespace Scheduler

/-- The number of directories of the tree. -/
def Search.dirCount (S : Search) : ℕ := (S.tree.preorder S.root).length

/-- The number of entries that they list. -/
def Search.entryCount (S : Search) : ℕ :=
  ((S.tree.preorder S.root).map fun dir => (S.fs.listing dir).length).sum

variable {n : ℕ}

theorem publishCost_eq (n : ℕ) : Queue.publishCost n = 4 * n ^ 2 + 20 * n + 13 := by
  simp only [Queue.publishCost, Queue.signalCost, Queue.broadcastCost, Queue.permitWorth,
    Nat.sub_zero]
  ring

theorem worth_effort (S : Search) :
    worth (effort n) S S.root = (Queue.publishCost n + 1) * S.dirCount + 3 * S.entryCount := by
  unfold worth Unfolding.sum Search.dirCount Search.entryCount
  -- every directory pays for its publication and for its entries
  induction S.tree.preorder S.root with
  | nil => rfl
  | cons dir dirs ih =>
    have hentries : ((S.fs.listing dir).map ((effort n).entry dir)).sum =
        3 * (S.fs.listing dir).length := by
      simp [effort, Nat.mul_comm]
    rw [List.map_cons, List.sum_cons, ih, hentries, List.length_cons, List.map_cons, List.sum_cons]
    simp only [effort]
    ring

theorem variant_init [NeZero n] (S : Search) : (State.init S : State n).variant S =
    (4 * n ^ 2 + 20 * n + 14) * S.dirCount + 3 * S.entryCount +
      n * (2 * n ^ 2 + 11 * n + 11) + 1 := by
  have hpermits : (State.init S : State n).sys.pool.permits = 0 := by
    simp [Queue.Pool.permits, Queue.permitValue, State.init, Queue.Pool.new, Queue.Pool.addDirs,
      Queue.Pool.push, Queue.Pool.setDeque]
  -- all workers begin in the same place, with the same potential
  have hpotential : ∀ i, ((State.init S : State n).task i).potential n
      ((State.init S : State n).sys.pc i) ((State.init S : State n).ws i) =
        2 * n ^ 2 + 11 * n + 11 := by
    intro i
    simp only [State.init, Task.potential, Queue.Pc.potential, Queue.signalCost,
      Queue.broadcastCost, Queue.permitWorth, Nat.sub_zero]
    ring
  rw [State.variant, worth_init, worth_effort, hpermits,
    Finset.sum_congr rfl fun i _ => hpotential i, publishCost_eq]
  simp [State.init, exitPotential]

end Scheduler

namespace Program

open Scheduler (Search)

variable {n : ℕ}

theorem length_le (S : Search) [NeZero n] {ls : List (Label n)} {s : State n}
    (h : (lts S).Run (.init S) ls s) :
    ls.length ≤ (Scheduler.State.init S : Scheduler.State n).variant S + 3 := by
  have hle := h.length_add_le (μ := fun s => s.run.variant S + s.main.variant)
    fun _ _ _ _ hst => hst.variant_lt
  exact (Nat.le_add_right _ _).trans hle

/-- **The number of steps is linear in the size of the tree.**  Every run of the program, whatever
the scheduling, has at most `4 n² + 20 n + 14` steps for each directory of the tree and three for
each entry, for `n` workers, and a number that depends on `n` alone. -/
theorem program_cost (S : Search) [NeZero n] {ls : List (Label n)} {s : State n}
    (h : (lts S).Run (.init S) ls s) :
    ls.length ≤ (4 * n ^ 2 + 20 * n + 14) * S.dirCount + 3 * S.entryCount +
      n * (2 * n ^ 2 + 11 * n + 11) + 4 := by
  have hle := length_le S h
  rw [Scheduler.variant_init] at hle
  exact hle

/-- Two workers on a small tree of two directories and two entries. -/
theorem program_cost_small :
    ∃ (ls : List (Label 2)) (s : State 2), (lts Scheduler.small).Run (.init Scheduler.small) ls s ∧
      s.exitCode = some 0 ∧ ls.length ≤ 70 * Scheduler.small.dirCount +
        3 * Scheduler.small.entryCount + 86 := by
  obtain ⟨ls, s, hr, hend, -, -⟩ := run_of_outcome (show outcome Scheduler.small
    (Scheduler.small.schedule.map some ++ [none, none, none]) =
      some (some 0, "r/f\ntotal: 3 bytes\n".toList.map byte, true) by decide)
  exact ⟨ls, s, hr, hend, program_cost Scheduler.small hr⟩

end Program

end Pfind
