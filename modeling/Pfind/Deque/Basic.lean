import Mathlib.Algebra.BigOperators.Group.Finset.Piecewise
import Mathlib.Algebra.BigOperators.Group.Multiset.Basic
import Mathlib.Algebra.Order.BigOperators.Group.Finset
import Mathlib.Data.Multiset.Basic

/-!
# Work-stealing deques

A linearizable work-stealing deque: the owner pushes and pops at one end (the newest item),
thieves steal at the other (the oldest item).  `Deque.eq_push_of_pop` and `Deque.items_of_steal`
say what an item was taken from, and `Deque.bag`, the multiset of the items held, is what
survives of a deque when only the number of times each item is held matters.

`Deque.total` is the bag of a family of deques, one for each worker.  The lemmas
`Deque.total_push`, `Deque.total_pop` and `Deque.total_steal` say that an item enters or leaves
the family exactly when it enters or leaves one of its deques.

A step of thread `i` replaces one member of a family only, and a total over all threads, in any
commutative monoid, then changes by the change of one summand (`Threads.sum_update_add`,
`Threads.exists_sum_eq`); a thread's own contribution is a lower bound of a total of natural
numbers (`Threads.le_sum_apply`).
-/

namespace Pfind

/-! ### Families of thread-local states -/

namespace Threads

open Finset Function

variable {ι σ M : Type*} [Fintype ι] [DecidableEq ι]

/-- Replacing the state of one thread moves a total by that thread's own change. -/
theorem sum_update_add [AddCommMonoid M] (f : σ → M) (g : ι → σ) (i : ι) (x : σ) :
    ∑ j, f (update g i x j) + f (g i) = ∑ j, f (g j) + f x := by
  have hcomp : (fun j => f (update g i x j)) = update (fun j => f (g j)) i (f x) := by
    funext j
    by_cases hj : j = i
    · subst hj; simp
    · simp [hj]
  rw [hcomp, sum_update_of_mem (mem_univ i), sdiff_singleton_eq_erase,
    ← add_sum_erase _ (fun j => f (g j)) (mem_univ i)]
  exact (add_comm _ _).trans (by rw [← add_assoc, add_right_comm])

omit [DecidableEq ι] in
theorem le_sum_apply (f : ι → ℕ) (i : ι) : f i ≤ ∑ j, f j :=
  single_le_sum (fun _ _ => Nat.zero_le _) (mem_univ i)

theorem exists_sum_eq [AddCommMonoid M] {f g : ι → M} {i : ι} (h : ∀ j, j ≠ i → f j = g j) :
    ∃ rest, ∑ j, f j = f i + rest ∧ ∑ j, g j = g i + rest := by
  refine ⟨∑ j ∈ univ.erase i, g j, ?_, (add_sum_erase _ _ (mem_univ i)).symm⟩
  rw [← add_sum_erase _ _ (mem_univ i)]
  exact congrArg (f i + ·) (sum_congr rfl fun j hj => h j (ne_of_mem_erase hj))

end Threads

/-! ### Deques -/

/-- A work-stealing deque. -/
structure Deque (α : Type*) where
  /-- The items, oldest first. -/
  items : List α
  deriving DecidableEq

namespace Deque

variable {α : Type*}

/-- The empty deque. -/
def empty : Deque α := ⟨[]⟩

/-- Put an item at the owner's end. -/
def push (d : Deque α) (a : α) : Deque α := ⟨d.items ++ [a]⟩

/-- Take the newest item. -/
def pop (d : Deque α) : Option (α × Deque α) :=
  d.items.getLast?.map fun a => (a, ⟨d.items.dropLast⟩)

/-- Take the oldest item. -/
def steal (d : Deque α) : Option (α × Deque α) :=
  match d.items with
  | [] => none
  | a :: as => some (a, ⟨as⟩)

/-- The items held, with multiplicities. -/
def bag (d : Deque α) : Multiset α := d.items

theorem pop_eq_none {d : Deque α} : d.pop = none ↔ d.items = [] := by
  simp [pop]

theorem eq_push_of_pop {d d' : Deque α} {a : α} (h : d.pop = some (a, d')) : d = d'.push a := by
  simp only [pop, Option.map_eq_some_iff, Prod.mk.injEq] at h
  obtain ⟨b, hb, rfl, rfl⟩ := h
  have hne : d.items ≠ [] := by rintro he; simp [he] at hb
  rw [List.getLast?_eq_getLast_of_ne_nil hne, Option.some.injEq] at hb
  subst hb
  simp only [push, List.dropLast_append_getLast hne]

theorem steal_eq_none {d : Deque α} : d.steal = none ↔ d.items = [] := by
  unfold steal; split <;> simp_all

theorem items_of_steal {d d' : Deque α} {a : α} (h : d.steal = some (a, d')) :
    d.items = a :: d'.items := by
  unfold steal at h
  split at h
  · cases h
  · rename_i b bs hb
    simp only [Option.some.injEq, Prod.mk.injEq] at h
    obtain ⟨rfl, rfl⟩ := h
    exact hb

@[simp] theorem bag_push (d : Deque α) (a : α) : (d.push a).bag = a ::ₘ d.bag := by
  rw [bag, push, ← Multiset.coe_add, Multiset.coe_singleton, add_comm, Multiset.singleton_add]
  rfl

theorem bag_of_pop {d d' : Deque α} {a : α} (h : d.pop = some (a, d')) :
    d.bag = a ::ₘ d'.bag := by
  rw [eq_push_of_pop h, bag_push]

theorem bag_of_steal {d d' : Deque α} {a : α} (h : d.steal = some (a, d')) :
    d.bag = a ::ₘ d'.bag := by
  simp only [bag, items_of_steal h, Multiset.cons_coe]

theorem bag_eq_zero {d : Deque α} : d.bag = 0 ↔ d.items = [] := by
  simp [bag]

/-! ### Families of deques -/

section Family

open Function

variable {ι : Type*} [Fintype ι] [DecidableEq ι]

/-- The items held by a family of deques. -/
def total (ds : ι → Deque α) : Multiset α := ∑ i, (ds i).bag

theorem total_update (ds : ι → Deque α) (i : ι) (d : Deque α) :
    total (update ds i d) + (ds i).bag = total ds + d.bag :=
  Threads.sum_update_add bag ds i d

@[simp] theorem total_push (ds : ι → Deque α) (i : ι) (a : α) :
    total (update ds i ((ds i).push a)) = a ::ₘ total ds := by
  have h := total_update ds i ((ds i).push a)
  rw [bag_push, Multiset.add_cons, ← Multiset.cons_add] at h
  exact add_right_cancel h

theorem total_pop {ds : ι → Deque α} {i : ι} {d : Deque α} {a : α}
    (h : (ds i).pop = some (a, d)) : total ds = a ::ₘ total (update ds i d) := by
  have h' := total_update ds i d
  rw [bag_of_pop h, Multiset.add_cons, ← Multiset.cons_add] at h'
  exact (add_right_cancel h').symm

theorem total_steal {ds : ι → Deque α} {i : ι} {d : Deque α} {a : α}
    (h : (ds i).steal = some (a, d)) : total ds = a ::ₘ total (update ds i d) := by
  have h' := total_update ds i d
  rw [bag_of_steal h, Multiset.add_cons, ← Multiset.cons_add] at h'
  exact (add_right_cancel h').symm

omit [DecidableEq ι] in
theorem total_eq_zero {ds : ι → Deque α} : total ds = 0 ↔ ∀ i, (ds i).items = [] := by
  simp [total, Finset.sum_eq_zero_iff, bag_eq_zero]

end Family

end Deque

end Pfind
