import Mathlib.Algebra.BigOperators.Group.Finset.Piecewise
import Mathlib.Algebra.Order.BigOperators.Group.Finset
import Pfind.Tree.Unfolding

/-!
# Levels of a tree, and lists layered by levels

A traversal that goes on with the newest node found holds, at any time, nodes of few parents only:
those on the path to the node that it is at.  What it holds is a list with a level for each item,
which does not decrease towards the newest one, and a bound on the items of each level
(`Layered`).

* `Unfolding.height_level` : a node at level `k` has at least `k` levels fewer below it.
* `Layered.sublist`, `Layered.children` : items may be taken out anywhere, and the children of the
  newest item be put behind it.
* `Layered.length_le` : **the length of the list is bounded by the widths of the levels**, however
  many nodes the tree has.
-/

namespace Pfind

variable {α : Type*}

namespace Unfolding

variable (U : Unfolding α)

/-- The nodes `k` levels below `x`. -/
def level (x : α) : ℕ → List α
  | 0 => [x]
  | k + 1 => (level x k).flatMap U.children

variable {U} {x y z : α} {k : ℕ}

theorem level_succ (hy : y ∈ U.level x k) (hz : z ∈ U.children y) : z ∈ U.level x (k + 1) :=
  List.mem_flatMap.2 ⟨y, hy, hz⟩

theorem level_subset_preorder : U.level x k ⊆ U.preorder x := by
  induction k with
  | zero =>
    rintro y hy
    rw [List.mem_singleton.1 hy]
    exact self_mem_preorder x
  | succ k ih =>
    rintro z hz
    obtain ⟨y, hy, hz⟩ := List.mem_flatMap.1 hz
    exact children_subset_preorder (ih hy) hz

theorem height_level (h : y ∈ U.level x k) : U.height y + k ≤ U.height x := by
  induction k generalizing y with
  | zero => rw [List.mem_singleton.1 h, Nat.add_zero]
  | succ k ih =>
    obtain ⟨z, hz, hy⟩ := List.mem_flatMap.1 h
    have := ih hz
    have := U.height_lt hy
    omega

end Unfolding

/-- A list of items with their levels, oldest first: the levels do not decrease, each item is at
its level, and there are at most `w k` items of level `k`. -/
structure Layered (At : ℕ → α → Prop) (w : ℕ → ℕ) (xs : List (ℕ × α)) : Prop where
  sorted : xs.Pairwise fun a b => a.1 ≤ b.1
  at_level : ∀ a ∈ xs, At a.1 a.2
  width : ∀ k, xs.countP (fun a => a.1 = k) ≤ w k

namespace Layered

variable {At : ℕ → α → Prop} {w : ℕ → ℕ} {xs ys : List (ℕ × α)} {k : ℕ} {x : α}

theorem sublist (h : Layered At w ys) (hs : xs.Sublist ys) : Layered At w xs where
  sorted := h.sorted.sublist hs
  at_level a ha := h.at_level a (hs.subset ha)
  width k := (hs.countP_le).trans (h.width k)

theorem children (h : Layered At w (xs ++ [(k, x)])) {cs : List α} (hlen : cs.length ≤ w (k + 1))
    (hat : ∀ c ∈ cs, At (k + 1) c) :
    Layered At w (xs ++ (k, x) :: cs.map fun c => (k + 1, c)) := by
  have hle : ∀ a ∈ xs ++ [(k, x)], a.1 ≤ k := by
    intro a ha
    rcases List.mem_append.1 ha with ha | ha
    · exact (List.pairwise_append.1 h.sorted).2.2 a ha _ (List.mem_singleton_self _)
    · rw [List.mem_singleton.1 ha]
  rw [List.append_cons]
  refine ⟨List.pairwise_append.2 ⟨h.sorted, ?_, ?_⟩, ?_, fun j => ?_⟩
  · exact List.pairwise_map.2 (List.pairwise_of_forall fun _ _ => Nat.le_refl _)
  · intro a ha b hb
    obtain ⟨c, -, rfl⟩ := List.mem_map.1 hb
    exact (hle a ha).trans (Nat.le_succ k)
  · intro a ha
    rcases List.mem_append.1 ha with ha | ha
    · exact h.at_level a ha
    · obtain ⟨c, hc, rfl⟩ := List.mem_map.1 ha
      exact hat c hc
  · rw [List.countP_append]
    by_cases hj : j = k + 1
    · -- no item of this level was there before
      subst hj
      have hz : (xs ++ [(k, x)]).countP (fun a => a.1 = k + 1) = 0 := by
        refine List.countP_eq_zero.2 fun a ha => ?_
        have := hle a ha
        simp only [decide_eq_true_eq]
        omega
      rw [hz, Nat.zero_add]
      exact List.countP_le_length.trans (by rwa [List.length_map])
    · have hz : (cs.map fun c => (k + 1, c)).countP (fun a => a.1 = j) = 0 := by
        refine List.countP_eq_zero.2 fun a ha => ?_
        obtain ⟨c, -, rfl⟩ := List.mem_map.1 ha
        simpa using Ne.symm hj
      rw [hz, Nat.add_zero]
      exact h.width j

theorem length_eq_sum_countP (xs : List (ℕ × α)) {H : ℕ} (hH : ∀ a ∈ xs, a.1 ≤ H) :
    xs.length = ∑ k ∈ Finset.range (H + 1), xs.countP fun a => a.1 = k := by
  induction xs with
  | nil => simp
  | cons a xs ih =>
    have ha : a.1 ∈ Finset.range (H + 1) :=
      Finset.mem_range.2 (Nat.lt_succ_of_le (hH a List.mem_cons_self))
    simp only [List.countP_cons, decide_eq_true_eq, Finset.sum_add_distrib, Finset.sum_ite_eq, ha,
      if_true, List.length_cons]
    rw [ih fun b hb => hH b (List.mem_cons_of_mem _ hb)]

/-- **The length of the list is bounded by the widths of the levels.** -/
theorem length_le (h : Layered At w xs) {H : ℕ} (hH : ∀ a ∈ xs, a.1 ≤ H) :
    xs.length ≤ ∑ k ∈ Finset.range (H + 1), w k := by
  rw [length_eq_sum_countP xs hH]
  exact Finset.sum_le_sum fun k _ => h.width k

end Layered

end Pfind
