import Mathlib.Data.List.Flatten
import Mathlib.Data.List.Forall2
import Pfind.Tree.Unfolding

/-!
# Pruned trees

Two trees on the same nodes are compared by the children of each node.

* `filterMap_sublist`, `filterMap_sublist_of_forall₂` : a partial function that is defined less
  often collects less.
* `filterMap_perm_append` : two partial functions that are defined in turn collect together what
  one does.
* `Unfolding.preorder_sublist` : **where children are left out, a traversal leaves out nodes**, and
  visits the others in the same order.
* `Unfolding.sum_pruned` : a total over all nodes is the one over the nodes visited, and what is
  below the children left out.
* `Unfolding.preorder_map_congr` : trees whose nodes look alike have traversals that look alike.
* `Unfolding.preorder_congr` : a tree is known from the children of its own nodes.
-/

namespace Pfind

variable {α β γ : Type*}

theorem filterMap_sublist_of_forall₂ {R : α → β → Prop} {f : α → Option γ} {g : β → Option γ}
    {l : List α} {l' : List β} (h : List.Forall₂ R l l')
    (hfg : ∀ a b c, R a b → g b = some c → f a = some c) :
    (l'.filterMap g).Sublist (l.filterMap f) := by
  induction h with
  | nil => exact .slnil
  | @cons a b l l' hab _ ih =>
    cases hg : g b with
    | none =>
      rw [List.filterMap_cons_none hg]
      exact ih.trans (List.Sublist.filterMap f (List.sublist_cons_self a l))
    | some c =>
      rw [List.filterMap_cons_some hg, List.filterMap_cons_some (hfg a b c hab hg)]
      exact ih.cons_cons c

theorem filterMap_sublist {f g : α → Option β} {l : List α}
    (h : ∀ a ∈ l, ∀ b, g a = some b → f a = some b) :
    (l.filterMap g).Sublist (l.filterMap f) :=
  filterMap_sublist_of_forall₂ (R := fun a a' => a = a' ∧ a ∈ l)
    (List.forall₂_same.2 fun _ ha => ⟨rfl, ha⟩) fun a _ b ⟨he, ha⟩ hg => h a ha b (he ▸ hg)

theorem filterMap_perm_append {f g k : α → Option β} {l : List α}
    (h : ∀ a ∈ l, f a = g a ∧ k a = none ∨ f a = k a ∧ g a = none) :
    (l.filterMap f).Perm (l.filterMap g ++ l.filterMap k) := by
  induction l with
  | nil => exact .nil
  | cons a l ih =>
    have hl := ih fun b hb => h b (List.mem_cons_of_mem a hb)
    rcases h a List.mem_cons_self with ⟨hf, hk⟩ | ⟨hf, hg⟩
    · rw [List.filterMap_cons_none hk, List.filterMap_cons, List.filterMap_cons, hf]
      cases g a with
      | none => exact hl
      | some b => exact hl.cons b
    · rw [List.filterMap_cons_none hg, List.filterMap_cons, List.filterMap_cons, hf]
      cases k a with
      | none => exact hl
      | some b => exact (hl.cons b).trans List.perm_middle.symm

namespace Unfolding

variable {U V : Unfolding α} {x : α}

/-- **Where children are left out, a traversal leaves out nodes.** -/
theorem preorder_sublist (h : ∀ y ∈ U.preorder x, (V.children y).Sublist (U.children y)) :
    (V.preorder x).Sublist (U.preorder x) := by
  induction x using U.induction with
  | h x ih =>
    rw [preorder_eq, preorder_eq]
    refine List.Sublist.cons_cons x (((h x (self_mem_preorder x)).flatMap _).trans ?_)
    exact List.Sublist.flatMap_right _ fun c hc =>
      ih c hc fun y hy => h y (preorder_child_subset hc hy)

/-- **What a traversal leaves out is below the children left out.** -/
theorem sum_pruned {M : Type*} [AddCommMonoid M] {f : α → M} {left : α → List α}
    (h : ∀ y ∈ V.preorder x, (U.children y).Perm (V.children y ++ left y)) :
    U.sum f x = V.sum (fun y => f y + ((left y).map (U.sum f)).sum) x := by
  induction x using V.induction with
  | h x ih =>
    -- the children visited keep what is left out below them, the others are counted whole
    have hchildren : (V.children x).map (U.sum f) =
        (V.children x).map (V.sum fun y => f y + ((left y).map (U.sum f)).sum) :=
      List.map_congr_left fun c hc => ih c hc fun y hy => h y (preorder_child_subset hc hy)
    rw [sum_eq, sum_eq, ((h x (self_mem_preorder x)).map (U.sum f)).sum_eq, List.map_append,
      List.sum_append, hchildren, add_assoc, add_comm (List.sum (List.map _ (left x)))]

/-- **Trees whose nodes look alike have traversals that look alike.** -/
theorem preorder_map_congr {W : Unfolding β} {f : α → γ} {g : β → γ} {z : β}
    (h : ∀ {y z}, f y = g z → (U.children y).map f = (W.children z).map g) (hx : f x = g z) :
    (U.preorder x).map f = (W.preorder z).map g := by
  induction x using U.induction generalizing z with
  | h x ih =>
    have hall : ∀ (ys : List α) (zs : List β), ys ⊆ U.children x → ys.map f = zs.map g →
        (ys.flatMap U.preorder).map f = (zs.flatMap W.preorder).map g := by
      intro ys zs hys heq
      induction ys generalizing zs with
      | nil => rw [List.map_eq_nil_iff.1 heq.symm]; rfl
      | cons y ys ih' =>
        obtain ⟨z, zs, rfl, hz, hzs⟩ := List.map_eq_cons_iff.1 heq.symm
        obtain ⟨hy, hys⟩ := List.cons_subset.1 hys
        rw [List.flatMap_cons, List.flatMap_cons, List.map_append, List.map_append,
          ih y hy hz.symm, ih' zs hys hzs.symm]
    rw [preorder_eq, preorder_eq, List.map_cons, List.map_cons, hx,
      hall _ _ (List.Subset.refl _) (h hx)]

/-- **A tree is known from the children of its own nodes.** -/
theorem preorder_congr (h : ∀ y ∈ U.preorder x, V.children y = U.children y) :
    V.preorder x = U.preorder x := by
  induction x using U.induction with
  | h x ih =>
    rw [preorder_eq, preorder_eq, h x (self_mem_preorder x)]
    refine congrArg (x :: ·) (List.flatMap_congr fun c hc => ?_)
    exact ih c hc fun y hy => h y (preorder_child_subset hc hy)

end Unfolding

end Pfind
