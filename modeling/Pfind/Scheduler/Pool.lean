import Pfind.Queue.Wakeup
import Pfind.Scheduler.Transition

/-!
# The pool in a run of the program

What `Queue.Quiescence` and `Queue.Wakeup` prove of the system of workers, carried over to the
runs of `Scheduler::run` by `simulation`.

* `dir_pending_exact` : **the quiescence counter is exact in every state**, `sub_dirs` never wraps
  it, and once it is zero it stays zero.
* `no_lost_wakeup_run` : **a worker sleeps only while the deques of the workers that are not about
  to unpark it are empty**.
-/

namespace Pfind

open Fs

namespace Scheduler

variable {n : ℕ} [NeZero n]

/-- **The quiescence counter is exact** : it is the number of directories in the deques, plus
those taken whose walk has not executed its `sub_dirs(1)`, plus the children announced and not yet
pushed.  No `sub_dirs` finds it at zero, and once it is zero it stays so. -/
theorem dir_pending_exact (S : Search) {s : State n} (h : (lts S).Reachable (.init S) s) :
    s.sys.pool.dirPending = s.sys.pool.queued.card + s.sys.held.card + s.sys.unpushed ∧
      (∀ i dir, s.sys.pc i = .subDirs dir → 0 < s.sys.pool.dirPending) ∧
      (s.sys.pool.dirPending = 0 →
        ∀ s', (lts S).Reachable s s' → s'.sys.pool.dirPending = 0) := by
  obtain ⟨hr, hs⟩ := sys_reachable h
  refine ⟨Queue.counter_exact hr, fun i dir hpc => Queue.subDirs_pos hr hpc, ?_⟩
  intro hz s' h'
  obtain ⟨_, hr', rfl, -⟩ := (simulation S).reachable h' ⟨rfl, hs⟩
  exact Queue.dirPending_stays_zero hr hz hr'

/-- The directory `r/d` is in a deque and `r` in hand. -/
theorem dir_pending_exact_small :
    ∃ s : State 2, (lts small).Reachable (.init small) s ∧ s.sys.pool.dirPending = 2 ∧
      s.sys.pool.dirPending = s.sys.pool.queued.card + s.sys.held.card + s.sys.unpushed := by
  obtain ⟨ls, s, -, hr, hs⟩ := LTS.Run.of_exec_map step_of_next
    (show (LTS.exec (State.next small) (small.schedule.take 9) (State.init small)).map
      (fun x => x.2.sys.pool.dirPending) = some 2 by decide)
  exact ⟨s, hr.reachable, hs, (dir_pending_exact small hr.reachable).1⟩

/-- **No lost wake-up** : while worker `b` sleeps, a worker whose deque holds a directory is in its
publish section, behind its first push, and has not unparked `b` yet. -/
theorem no_lost_wakeup_run (S : Search) {s : State n} (h : (lts S).Reachable (.init S) s)
    {b : Fin n} (hb : s.sys.Blocked b) :
    (∀ a, (s.sys.pool.deque a).items ≠ [] → (s.sys.pc a).Publishing b) ∧
      ((∀ a, ¬ (s.sys.pc a).Publishing b) → ∀ a, (s.sys.pool.deque a).items = []) := by
  have hpub : ∀ a, (s.sys.pool.deque a).items ≠ [] → (s.sys.pc a).Publishing b := fun a ha =>
    Queue.no_lost_wakeup Queue.handshake_of_sc (sys_reachable h).1 hb ha
  exact ⟨hpub, fun hq a => by_contra fun hne => hq a (hpub a hne)⟩

/-- Worker 1 sleeps while `r/d` is in the deque of worker 0, which is going to unpark it; and it
sleeps while worker 0 is behind its publish section, and then all deques are empty. -/
theorem no_lost_wakeup_small :
    (∃ s : State 2, (lts small).Reachable (.init small) s ∧ s.sys.Blocked 1 ∧
      (s.sys.pool.deque 0).items = [[byte 'r', byte '/', byte 'd']] ∧
      (s.sys.pc 0).Publishing (1 : Fin 2)) ∧
    ∃ s : State 2, (lts small).Reachable (.init small) s ∧ s.sys.Blocked 1 ∧
      (∀ a, ¬ (s.sys.pc a).Publishing (1 : Fin 2)) ∧ ∀ a, (s.sys.pool.deque a).items = [] := by
  constructor
  -- worker 1 parks while worker 0 is reading the root
  · obtain ⟨ls, s, -, hr, hs⟩ := LTS.Run.of_exec_map step_of_next
      (show (LTS.exec (State.next small) (0 :: List.replicate 7 1 ++ List.replicate 7 0)
          (State.init small : State 2)).map
        (fun x => ((x.2.sys.pc 1, x.2.sys.pool.permit 1), (x.2.sys.pool.deque 0).items)) =
          some ((.park, false), [[byte 'r', byte '/', byte 'd']]) by decide)
    simp only [Prod.mk.injEq] at hs
    obtain ⟨hb, hd⟩ := hs
    refine ⟨s, hr.reachable, hb, hd, (no_lost_wakeup_run small hr.reachable hb).1 0 ?_⟩
    rw [hd]
    exact List.cons_ne_nil _ _
  -- worker 1 has walked `r/d` before it parks
  · obtain ⟨ls, s, -, hr, hs⟩ := LTS.Run.of_exec_map step_of_next
      (show (LTS.exec (State.next small) (small.schedule.take 21) (State.init small)).map
        (fun x => (x.2.sys.pc 0, x.2.sys.pc 1, x.2.sys.pool.permit 1)) =
          some (.subDirs [byte 'r'], .park, false) by decide)
    simp only [Prod.mk.injEq] at hs
    obtain ⟨h0, hb⟩ := hs
    have hq : ∀ a, ¬ (s.sys.pc a).Publishing (1 : Fin 2) :=
      Fin.forall_fin_two.2 ⟨by rw [h0]; exact id, by rw [hb.1]; exact id⟩
    exact ⟨s, hr.reachable, hb, hq, (no_lost_wakeup_run small hr.reachable hb).2 hq⟩

end Scheduler

end Pfind
