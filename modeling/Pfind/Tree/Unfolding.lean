import Mathlib.Algebra.BigOperators.Group.List.Basic
import Mathlib.Data.List.Nodup

/-!
# Finite trees given by their children

A tree of finite height is given by the children of each node; its nodes below `x`, in the order
in which a sequential traversal from `x` visits them, are `Unfolding.preorder x`.

* `Unfolding.induction` : induction on the height.
* `Unfolding.children_subset_preorder` : the nodes below a node are closed under children.
* `Unfolding.preorder_perm` : they are the node itself and the children of all of them.
* `Unfolding.sum` : the total of a function over all nodes below a node, in any commutative
  monoid; `Unfolding.sum_eq` unfolds it once.
* `Unfolding.nodup_preorder` : **where every node has one parent, a traversal visits no node
  twice**.
-/

namespace Pfind

/-- A tree in which every node has finitely many children, and which has finite height. -/
structure Unfolding (α : Type*) where
  /-- The children of a node, in order. -/
  children : α → List α
  /-- A bound on the number of levels below a node. -/
  height : α → ℕ
  /-- A child has fewer levels below it. -/
  height_lt : ∀ {x y}, y ∈ children x → height y < height x

namespace Unfolding

variable {α β : Type*} (U : Unfolding α)

/-- The nodes from `x` downwards, each before its children. -/
def preorder (x : α) : List α := x :: (U.children x).attach.flatMap fun y => preorder y.1
termination_by U.height x
decreasing_by exact U.height_lt y.2

theorem preorder_eq (x : α) : U.preorder x = x :: (U.children x).flatMap U.preorder := by
  rw [preorder]
  congr 1
  conv_rhs => rw [← List.attach_map_subtype_val (U.children x)]
  rw [List.flatMap_map]

/-- What holds of a node whenever it holds of its children holds of every node. -/
theorem induction {P : α → Prop} (h : ∀ x, (∀ y ∈ U.children x, P y) → P x) (x : α) : P x := by
  induction hx : U.height x using Nat.strongRecOn generalizing x with
  | ind k ih => exact h x fun y hy => ih _ (hx ▸ U.height_lt hy) y rfl

section Sum

variable {M : Type*} [AddCommMonoid M] (f : α → M)

/-- The total of `f` over the nodes from `x` downwards. -/
def sum (x : α) : M := ((U.preorder x).map f).sum

theorem sum_eq (x : α) : U.sum f x = f x + ((U.children x).map (U.sum f)).sum := by
  rw [sum, preorder_eq, List.map_cons, List.sum_cons, List.map_flatMap]
  congr 1
  induction U.children x with
  | nil => rfl
  | cons y ys ih => rw [List.flatMap_cons, List.sum_append, List.map_cons, List.sum_cons, ih, sum]

end Sum

variable {U} {x y z : α}

theorem self_mem_preorder (x : α) : x ∈ U.preorder x := by
  rw [preorder_eq]
  exact List.mem_cons_self

theorem preorder_child_subset (hy : y ∈ U.children x) : U.preorder y ⊆ U.preorder x := by
  intro z hz
  rw [preorder_eq U x]
  exact List.mem_cons_of_mem _ (List.mem_flatMap.2 ⟨y, hy, hz⟩)

theorem children_subset_preorder (hy : y ∈ U.preorder x) (hz : z ∈ U.children y) :
    z ∈ U.preorder x := by
  induction x using U.induction with
  | h x ih =>
    rw [preorder_eq, List.mem_cons, List.mem_flatMap] at hy
    rcases hy with rfl | ⟨c, hc, hy⟩
    · exact preorder_child_subset hz (self_mem_preorder z)
    · exact preorder_child_subset hc (ih c hc hy)

theorem preorder_perm (x : α) :
    (U.preorder x).Perm (x :: (U.preorder x).flatMap U.children) := by
  induction x using U.induction with
  | h x ih =>
    rw [preorder_eq, List.flatMap_cons, List.flatMap_assoc]
    refine List.Perm.cons x (List.Perm.trans (List.Perm.flatMap_left _ ih) ?_)
    refine (List.flatMap_append_perm (U.children x) (fun y => [y]) fun y =>
      (U.preorder y).flatMap U.children).symm.trans ?_
    rw [List.flatMap_singleton']

theorem mem_preorder_iff :
    z ∈ U.preorder x ↔ z = x ∨ ∃ y ∈ U.preorder x, z ∈ U.children y := by
  rw [(preorder_perm x).mem_iff, List.mem_cons, List.mem_flatMap]

theorem height_le (hy : y ∈ U.preorder x) : U.height y ≤ U.height x := by
  induction x using U.induction with
  | h x ih =>
    rw [preorder_eq, List.mem_cons, List.mem_flatMap] at hy
    rcases hy with rfl | ⟨c, hc, hy⟩
    · exact Nat.le_refl _
    · exact Nat.le_trans (ih c hc hy) (Nat.le_of_lt (U.height_lt hc))

/-! ### Trees in which every node has one parent -/

section Parents

variable (hparent : ∀ {y y' z}, z ∈ U.children y → z ∈ U.children y' → y = y')

include hparent

theorem mem_preorder_or_mem_preorder (hx : z ∈ U.preorder x) (hy : z ∈ U.preorder y) :
    x ∈ U.preorder y ∨ y ∈ U.preorder x := by
  induction x using U.induction with
  | h x ih =>
    rw [preorder_eq, List.mem_cons, List.mem_flatMap] at hx
    rcases hx with rfl | ⟨c, hc, hx⟩
    · exact Or.inl hy
    · rcases ih c hc hx with h | h
      · -- the parent of the child is the only one
        rcases mem_preorder_iff.1 h with rfl | ⟨p, hp, hcp⟩
        · exact Or.inr (preorder_child_subset hc (self_mem_preorder c))
        · exact Or.inl (hparent hcp hc ▸ hp)
      · exact Or.inr (preorder_child_subset hc h)

theorem eq_of_mem_preorder (hy : y ∈ U.children x) (hz : z ∈ U.children x)
    (h : y ∈ U.preorder z) : y = z := by
  rcases mem_preorder_iff.1 h with rfl | ⟨p, hp, hyp⟩
  · rfl
  · obtain rfl := hparent hy hyp
    exact absurd (height_le hp) (Nat.not_le.2 (U.height_lt hz))

/-- **Where no node is the child of two others, a traversal visits no node twice.** -/
theorem nodup_preorder (hchildren : ∀ y, (U.children y).Nodup) (x : α) :
    (U.preorder x).Nodup := by
  induction x using U.induction with
  | h x ih =>
    rw [preorder_eq, List.nodup_cons, List.mem_flatMap, List.nodup_flatMap]
    refine ⟨?_, ih, (hchildren x).imp_of_mem fun {y z} hy hz hne => ?_⟩
    · rintro ⟨c, hc, hx⟩
      exact absurd (height_le hx) (Nat.not_le.2 (U.height_lt hc))
    · refine List.disjoint_left.2 fun w hwy hwz => hne ?_
      rcases mem_preorder_or_mem_preorder hparent hwy hwz with h | h
      · exact eq_of_mem_preorder hparent hy hz h
      · exact (eq_of_mem_preorder hparent hz hy h).symm

end Parents

end Unfolding

end Pfind
