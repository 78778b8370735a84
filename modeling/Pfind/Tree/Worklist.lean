import Mathlib.Data.Multiset.Bind
import Pfind.LTS.Basic
import Pfind.Tree.Unfolding

/-!
# Visiting a tree from a worklist

A tree is visited by taking pending nodes, in whatever order, each of which makes its children
pending (`Unfolding.worklist`).  With a stack for the pending nodes nothing is left to choose
(`Unfolding.stack`).

* `Unfolding.worklist_perm` : **every order of the visits visits every node exactly once.**
* `Unfolding.exists_parent` : a node is visited behind its parent.
* `Unfolding.stack_eq` : **with a stack the nodes are visited depth first**, the last child of a
  node before the others.
-/

namespace Pfind

namespace Unfolding

variable {α : Type*} (U : Unfolding α)

/-- A pending node is visited, and its children become pending. -/
def worklist : LTS (Multiset α) α where
  step pending x pending' := ∃ rest, pending = x ::ₘ rest ∧ pending' = rest + U.children x

/-- The node on top of the stack is visited, and its children are pushed, one after the other. -/
def stack : LTS (List α) α where
  step pending x pending' := ∃ rest, pending = x :: rest ∧
    pending' = (U.children x).reverse ++ rest

/-- The tree with the children of each node in the opposite order. -/
def reverse : Unfolding α where
  children x := (U.children x).reverse
  height := U.height
  height_lt h := U.height_lt (List.mem_reverse.1 h)

variable {U} {x y : α} {xs : List α}

/-! ### The worklist -/

theorem worklist_add {p p' : Multiset α} (h : U.worklist.Run p xs p') :
    (xs : Multiset α) + p'.bind (fun y => (U.preorder y : Multiset α)) =
      p.bind fun y => (U.preorder y : Multiset α) := by
  have hpre : ∀ x, (U.preorder x : Multiset α) =
      x ::ₘ Multiset.bind (U.children x : Multiset α) fun y => (U.preorder y : Multiset α) := by
    intro x
    rw [preorder_eq, ← Multiset.cons_coe, ← Multiset.coe_bind]
  refine h.history (P := fun xs p' => (xs : Multiset α) +
    p'.bind (fun y => (U.preorder y : Multiset α)) = p.bind fun y => (U.preorder y : Multiset α))
    (zero_add _) ?_
  rintro xs _ x _ - ih ⟨rest, rfl, rfl⟩
  rw [Multiset.cons_bind, hpre, Multiset.cons_add, ← Multiset.singleton_add] at ih
  rw [← ih, ← Multiset.coe_add, Multiset.coe_singleton, Multiset.add_bind, add_assoc]
  ac_rfl

/-- **Every order of the visits visits every node exactly once.** -/
theorem worklist_perm (h : U.worklist.Run {x} xs 0) : xs.Perm (U.preorder x) := by
  have hadd := worklist_add h
  rw [Multiset.zero_bind, add_zero, Multiset.singleton_bind] at hadd
  exact Multiset.coe_eq_coe.1 hadd

theorem mem_pending {p p' : Multiset α} (h : U.worklist.Run p xs p') :
    ∀ y ∈ p', y ∈ p ∨ ∃ x ∈ xs, y ∈ U.children x := by
  refine h.history (P := fun xs p' => ∀ y ∈ p', y ∈ p ∨ ∃ x ∈ xs, y ∈ U.children x)
    (fun _ => Or.inl) ?_
  rintro xs _ x _ - ih ⟨rest, rfl, rfl⟩ y hy
  rcases Multiset.mem_add.1 hy with hy | hy
  · refine (ih y (Multiset.mem_cons_of_mem hy)).imp_right ?_
    rintro ⟨z, hz, hyz⟩
    exact ⟨z, List.mem_append_left _ hz, hyz⟩
  · exact Or.inr ⟨x, by simp, Multiset.mem_coe.1 hy⟩

/-- **A node is visited behind its parent**, unless it was pending in the beginning. -/
theorem exists_parent {p p' : Multiset α} (h : U.worklist.Run p xs p') :
    ∀ ys zs, xs = ys ++ y :: zs → y ∈ p ∨ ∃ x ∈ ys, y ∈ U.children x := by
  refine h.history (P := fun xs _ => ∀ ys zs, xs = ys ++ y :: zs →
    y ∈ p ∨ ∃ x ∈ ys, y ∈ U.children x) (fun ys zs he => by simp at he) ?_
  rintro xs _ x _ hr ih ⟨rest, rfl, rfl⟩ ys zs he
  rcases List.eq_nil_or_concat zs with rfl | ⟨zs, z, rfl⟩
  · obtain ⟨rfl, hx⟩ := List.append_inj' he rfl
    cases hx
    exact mem_pending hr y (Multiset.mem_cons_self y rest)
  · rw [List.concat_eq_append, ← List.cons_append, ← List.append_assoc] at he
    exact ih ys zs (List.append_inj' he rfl).1

/-! ### The stack -/

/-- **With a stack the nodes are visited depth first**, the last child of a node first. -/
theorem stack_eq {p p' : List α} (h : U.stack.Run p xs p') :
    xs ++ p'.flatMap U.reverse.preorder = p.flatMap U.reverse.preorder := by
  refine h.history (P := fun xs p' => xs ++ p'.flatMap U.reverse.preorder =
    p.flatMap U.reverse.preorder) rfl ?_
  rintro xs _ x _ - ih ⟨rest, rfl, rfl⟩
  rw [List.flatMap_cons, preorder_eq] at ih
  rw [← ih, List.flatMap_append]
  simp [reverse]

end Unfolding

end Pfind
