import Mathlib.Algebra.GroupWithZero.Nat
import Pfind.Queue.Potential
import Pfind.Queue.Quiescence
import Pfind.Tree.Unfolding

/-!
# The pool alone comes to an end

For the walk of a finite tree the potential of `Queue.Potential` is completed to a variant of the
system of workers: an item that has not been walked pays for the publish section of its walk, and
for those of the items below it.

* `Transition.unwalked` : apart from the end of a walk, a step moves the items that have not been
  walked around, and no more.
* `Step.variant_lt` : **every step decreases the variant**, under every memory model.
-/

namespace Pfind

namespace Queue

open Function

variable {n : ℕ} {T : Type*}

/-- The items that a worker has in hand or announced and that have not been walked. -/
def Pc.unwalked : Pc T → List T
  | .found t | .walk t => [t]
  | .addDirs _ cs | .push _ _ cs => cs
  | _ => []

theorem unwalked_publish (t : T) (cs : List T) : (Pc.publish t cs).unwalked = cs := by
  cases cs <;> rfl

variable {i : Fin n} {r : Reading} {m m' : Pool n T} {p p' : Pc T} {e : Event T}

theorem Transition.unwalked (h : Transition i r m p e m' p') (hp : ∀ t, p ≠ .walk t) :
    m'.queued + (p'.unwalked : Multiset T) = m.queued + (p.unwalked : Multiset T) := by
  have hq := h.queued
  cases h with
  | @walk t => exact absurd rfl (hp t)
  | popSome | stealSome | recheckSome =>
    simpa [Pc.unwalked, Event.takes, Event.pushes] using hq
  | push =>
    simp only [Event.takes, Event.pushes, add_zero] at hq
    rw [hq, add_assoc, Multiset.singleton_add, Multiset.cons_coe]
    rfl
  | _ => rfl

variable (U : Unfolding T)

/-- What an item pays: the publish section of its walk, and of the walks of all items below it. -/
def workOf (n : ℕ) (t : T) : ℕ := U.sum (fun t => publishCost n + (U.children t).length) t

/-- A worker may take so many steps with what it has in hand. -/
def Pc.budget (n : ℕ) (p : Pc T) : ℕ := (p.unwalked.map (workOf U n)).sum + p.potential n

/-- The variant: it bounds the number of steps that are still possible. -/
def State.variant (s : State n T) : ℕ :=
  (s.pool.queued.map (workOf U n)).sum + s.pool.permits + ∑ i, (s.pc i).budget U n

variable {U}

theorem Transition.budget_lt (h : Transition i r m p e m' p') (hp : ∀ t, p ≠ .walk t) :
    (m'.queued.map (workOf U n)).sum + m'.permits + p'.budget U n <
      (m.queued.map (workOf U n)).sum + m.permits + p.budget U n := by
  have hlt := h.potential_lt hp
  have hun := congrArg (fun x : Multiset T => (x.map (workOf U n)).sum) (h.unwalked hp)
  simp only [Multiset.map_add, Multiset.sum_add, Multiset.map_coe, Multiset.sum_coe] at hun
  unfold Pc.budget
  omega

theorem budget_publish_lt (t : T) :
    (Pc.publish t (U.children t)).budget U n < (Pc.walk t).budget U n := by
  have hle := potential_publish_le (n := n) t (U.children t)
  have hwork : workOf U n t =
      publishCost n + (U.children t).length + ((U.children t).map (workOf U n)).sum :=
    U.sum_eq _ t
  have hwalk : (Pc.walk t).budget U n = workOf U n t + (signalCost n + 1) := by
    simp [Pc.budget, Pc.unwalked, Pc.potential]
  rw [hwalk, Pc.budget, unwalked_publish]
  omega

/-- **Every step decreases the variant.** -/
theorem Step.variant_lt {M : Memory n T} {s s' : State n T}
    (h : Step (.ofFun U.children) M s e s') : s'.variant U < s.variant U := by
  unfold State.variant
  cases h with
  | @walk i t cs hpc hcs =>
    obtain rfl : cs = U.children t := hcs
    have hlt := budget_publish_lt (U := U) (n := n) t
    have hsum := Threads.sum_update_add (Pc.budget U n) s.pc i (.publish t (U.children t))
    rw [hpc] at hsum
    simp only [State.publish, State.set] at hsum ⊢
    omega
  | @op _ i r _ _ hop =>
    have hwalk := State.not_walk_of_op hop
    obtain ⟨m', p', ht, rfl⟩ := State.transition_of_op hop
    have hlt := ht.budget_lt (U := U) hwalk
    have hsum := Threads.sum_update_add (Pc.budget U n) s.pc i p'
    simp only [State.set] at hsum ⊢
    omega

end Queue

end Pfind
