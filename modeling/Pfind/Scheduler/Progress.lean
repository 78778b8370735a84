import Pfind.Queue.Deadlock
import Pfind.Scheduler.Termination

/-!
# Every run can be brought to its end

A run in which no write fails goes on until all threads have ended: a worker without a next step
has ended or sleeps (`next_eq_none`), and not all workers that have not returned can sleep.

* `exists_finished` : **from every state some run leads to the end of all threads**.
-/

namespace Pfind

open Fs

namespace Scheduler

variable {n : ℕ} {S : Search} {s s' : State n} {i : Fin n} {l : Label n}

theorem next_exit (h : s.next S i = some (l, s')) : s.exit = none ∧ s'.exit = none := by
  have hx : s.exit = none := (Step.cases (.next h)).1
  refine ⟨hx, ?_⟩
  unfold State.next at h
  split_ifs at h
  split at h
  · split at h
    · split at h <;> cases h <;> exact hx
    · cases h
      simpa using hx
    · obtain ⟨x, -, hl⟩ := Option.map_eq_some_iff.1 h
      cases hl
      exact hx
  · cases h; exact hx
  · cases h; exact hx
  · cases h; simpa using hx
  · cases h; simpa using hx
  · cases h; simpa using hx
  · cases h

theorem next_eq_none (hx : s.exit = none) (h : s.next S i = none) :
    s.task i = .finished ∨ s.sys.Blocked i := by
  unfold State.next at h
  rw [hx, Option.isSome_none, if_neg Bool.false_ne_true] at h
  split at h
  · split at h
    · split at h <;> cases h
    · cases h
    · rename_i hw hr
      rcases Queue.workerLoop_eq_none (Option.map_eq_none_iff.1 (Option.map_eq_none_iff.1 h)) with
        hi | ⟨t, hi⟩ | hi
      · exact absurd hi hr
      · exact absurd hi (hw t)
      · exact Or.inr hi
  · cases h
  · cases h
  · cases h
  · cases h
  · cases h
  · exact Or.inl ‹_›

/-- The system of the worker threads as long as no write fails. -/
def succeeding (S : Search) : LTS (State n) (Label n) :=
  ⟨fun s l s' => ∃ i, s.next S i = some (l, s')⟩

theorem run_of_succeeding {ls : List (Label n)} (h : (succeeding S).Run s ls s') :
    (lts S).Run s ls s' := by
  refine h.mono ?_
  rintro s l s' ⟨i, hi⟩
  exact step_of_next hi

theorem exit_of_succeeding {ls : List (Label n)} (h : (succeeding S).Run s ls s')
    (hx : s.exit = none) : s'.exit = none := by
  refine h.history (P := fun _ s => s.exit = none) hx ?_
  rintro _ s l s' - - ⟨i, hi⟩
  exact (next_exit hi).2

/-- **From every state some run leads to the end of all threads.** -/
theorem exists_finished [NeZero n] (h : (lts S).Reachable (.init S) s) (hx : s.exit = none) :
    ∃ ls s', (lts S).Run s ls s' ∧ s'.exit = none ∧ ∀ i, s'.task i = .finished := by
  obtain ⟨ls, s', hr, hs⟩ := LTS.exists_stuck (A := succeeding S) (State.variant S) (by
    rintro s l s' ⟨i, hi⟩
    obtain ⟨hx, j, hm⟩ := Step.cases (.next hi)
    exact hm.variant_lt hx) s
  have hrun := run_of_succeeding hr
  have hx' := exit_of_succeeding hr hx
  obtain ⟨hq, hp⟩ := sys_reachable (h.trans hrun.reachable)
  have hidle : ∀ i, s'.task i = .finished ∨ s'.sys.Blocked i := by
    intro i
    refine next_eq_none (S := S) hx' ?_
    cases hn : s'.next S i with
    | none => rfl
    | some x => exact absurd ⟨i, hn⟩ (hs x.1 x.2)
  have hret : ∀ i, s'.task i = .finished → s'.sys.pc i = .returned := by
    intro i hi
    have hat := hp i
    rwa [hi] at hat
  refine ⟨ls, s', hrun, hx', ?_⟩
  by_contra hne
  push Not at hne
  obtain ⟨i, hi⟩ := hne
  have hb := (hidle i).resolve_left hi
  refine Queue.not_deadlocked hq ⟨⟨i, by simp [hb.1]⟩, fun j hj => ?_⟩
  exact (hidle j).resolve_left fun hf => hj (hret j hf)

end Scheduler

end Pfind
