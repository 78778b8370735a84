import Pfind.Queue.Deadlock
import Pfind.Tree.Levels

/-!
# How much the pool holds

A worker pops the newest item of its deque and pushes the children of that item behind what is
left, and a thief, whose own deque is empty, takes the oldest one.  So what a worker answers for,
the items of its deque, the one in hand and the children still to be pushed, is layered by levels
(`Pc.Owns`, `holds_of_reachable`).

* `deque_layered` : **the items of every deque are in the order of their levels**, and a thief takes
  one of the least level in the deque.
* `dirPending_le` : **`dir_pending` is bounded by the widths of the levels, for each worker once**,
  however many items there are in all.

All of this holds for every memory model.
-/

namespace Pfind

namespace Queue

open Function

variable {n : ℕ} {T : Type*}

/-- What a worker answers for: the items of its deque, the item in hand between those that were
there before and those pushed since, and the children announced and still to be pushed. -/
def Pc.Owns (items own : List T) : Pc T → Prop
  | .found t | .walk t => own = items ++ [t]
  | .addDirs t cs => own = items ++ t :: cs
  | .push t _ cs => ∃ older new, items = older ++ new ∧ own = older ++ t :: (new ++ cs)
  | .maybeUnpark t | .unparkAll t _ | .subDirs t =>
    ∃ older new, items = older ++ new ∧ own = older ++ t :: new
  | _ => own = items

variable {items items' own : List T} {p p' : Pc T} {t x : T}

theorem Pc.Owns.sublist (h : p.Owns items own) : items.Sublist own := by
  cases p with
  | found | walk | addDirs =>
    obtain rfl := h
    exact List.sublist_append_left _ _
  | push =>
    obtain ⟨older, new, rfl, rfl⟩ := h
    exact (List.Sublist.refl _).append ((List.sublist_append_left _ _).cons _)
  | maybeUnpark | unparkAll | subDirs =>
    obtain ⟨older, new, rfl, rfl⟩ := h
    exact (List.Sublist.refl _).append ((List.Sublist.refl _).cons _)
  | _ => exact (show own = items from h) ▸ List.Sublist.refl _

theorem Pc.Owns.length_le (h : p.Owns items own) :
    items.length + p.inHand.card + p.unpushed.length ≤ own.length := by
  cases p with
  | found | walk | addDirs =>
    obtain rfl := h
    simp [Pc.inHand, Pc.unpushed]
  | push | maybeUnpark | unparkAll | subDirs =>
    obtain ⟨older, new, rfl, rfl⟩ := h
    simp only [Pc.inHand, Pc.unpushed, List.length_append, List.length_cons, List.length_nil,
      Multiset.card_singleton]
    omega
  | _ =>
    obtain rfl : own = items := h
    simp [Pc.inHand, Pc.unpushed]

theorem Pc.Owns.steal (h : p.Owns (x :: items) own) :
    ∃ own', own'.Sublist own ∧ p.Owns items own' := by
  cases p with
  | found | walk | addDirs =>
    obtain rfl := h
    exact ⟨_, List.sublist_cons_self x _, rfl⟩
  | push t k cs =>
    obtain ⟨older, new, hitems, rfl⟩ := h
    -- the oldest item is from before the walk, or, if there is none, a child pushed since
    cases older with
    | nil =>
      obtain rfl : x :: items = new := hitems
      exact ⟨t :: (items ++ cs), (List.sublist_cons_self _ _).cons_cons t, [], items, rfl, rfl⟩
    | cons y older =>
      obtain ⟨rfl, rfl⟩ := List.cons.inj hitems
      exact ⟨_, List.sublist_cons_self x _, older, new, rfl, rfl⟩
  | maybeUnpark t | unparkAll t | subDirs t =>
    obtain ⟨older, new, hitems, rfl⟩ := h
    cases older with
    | nil =>
      obtain rfl : x :: items = new := hitems
      exact ⟨t :: items, (List.sublist_cons_self _ _).cons_cons t, [], items, rfl, rfl⟩
    | cons y older =>
      obtain ⟨rfl, rfl⟩ := List.cons.inj hitems
      exact ⟨_, List.sublist_cons_self x _, older, new, rfl, rfl⟩
  | _ =>
    obtain rfl : own = x :: items := h
    exact ⟨items, List.sublist_cons_self x _, rfl⟩

/-- What a worker answers for is layered. -/
def Holds (At : ℕ → T → Prop) (w : ℕ → ℕ) (p : Pc T) (items : List T) : Prop :=
  ∃ xs, Layered At w xs ∧ p.Owns items (xs.map Prod.snd)

variable {At : ℕ → T → Prop} {w : ℕ → ℕ}

theorem Holds.mono {q : Pc T} (h : Holds At w p items)
    (hown : ∀ own, p.Owns items own → ∃ own', own'.Sublist own ∧ q.Owns items' own') :
    Holds At w q items' := by
  obtain ⟨xs, hxs, ho⟩ := h
  obtain ⟨own', hsub, ho'⟩ := hown _ ho
  obtain ⟨ys, hys, rfl⟩ := List.sublist_map_iff.1 hsub
  exact ⟨ys, hxs.sublist hys, ho'⟩

theorem Holds.stolen (h : Holds At w p (x :: items)) : Holds At w (.walk x) [] := by
  obtain ⟨xs, hxs, ho⟩ := h
  have hsub : [x].Sublist (xs.map Prod.snd) :=
    (List.singleton_sublist.2 List.mem_cons_self).trans ho.sublist
  obtain ⟨ys, hys, hx⟩ := List.sublist_map_iff.1 hsub
  exact ⟨ys, hxs.sublist hys, hx.symm⟩

/-- The walk of an item at some level publishes items one level below, no more than there may be
of that level. -/
def Walk.Graded (W : Walk T) (At : ℕ → T → Prop) (w : ℕ → ℕ) : Prop :=
  ∀ k t cs, At k t → W.publishes t cs → cs.length ≤ w (k + 1) ∧ ∀ c ∈ cs, At (k + 1) c

theorem Holds.publish {W : Walk T} (hW : W.Graded At w) (h : Holds At w (.walk t) items)
    {cs : List T} (hcs : W.publishes t cs) : Holds At w (.publish t cs) items := by
  obtain ⟨xs, hxs, ho⟩ := h
  obtain ⟨ys, zs, rfl, rfl, hz⟩ :=
    List.map_eq_append_iff.1 (show xs.map Prod.snd = items ++ [t] from ho)
  obtain ⟨⟨k, t'⟩, rfl, rfl⟩ := List.map_eq_singleton_iff.1 hz
  obtain ⟨hlen, hat⟩ := hW k t' cs (hxs.at_level (k, t') (by simp)) hcs
  refine ⟨_, hxs.children hlen hat, ?_⟩
  cases cs with
  | nil => exact ⟨ys.map Prod.snd, [], by simp, by simp⟩
  | cons c cs =>
    show _ = _
    simp [Function.comp_def]

/-! ### One transition -/

variable {i : Fin n} {r : Reading} {m m' : Pool n T} {e : Event T}

theorem Transition.items_of_ne (h : Transition i r m p e m' p') {j : Fin n} (hj : j ≠ i) :
    (m'.deque j).items = (m.deque j).items ∨ ∃ x, (m.deque j).items = x :: (m'.deque j).items := by
  cases h with
  | popSome | push => exact Or.inl (by simp [Pool.push, Pool.setDeque, hj])
  | @stealSome k t d _ hd | @recheckSome k t d _ hd =>
    by_cases hk : j = peer i k
    · subst hk
      exact Or.inr ⟨t, by simpa [Pool.setDeque] using Deque.items_of_steal hd⟩
    · exact Or.inl (by simp [Pool.setDeque, hk])
  | _ => exact Or.inl rfl

/-- Unless it steals or ends a walk, worker `i` goes on with what it answers for, or with part of
it; a thief has an empty deque. -/
theorem Transition.owns (h : Transition i r m p e m' p') (hp : ∀ t, p ≠ .walk t) :
    (∀ own, p.Owns (m.deque i).items own →
      ∃ own', own'.Sublist own ∧ p'.Owns (m'.deque i).items own') ∨
    p.Drained ∧ ∃ j x d, (m.deque j).steal = some (x, d) ∧ m' = m.setDeque j d ∧
      (p' = .walk x ∨ p' = .found x) := by
  cases h with
  | @walk t => exact absurd rfl (hp t)
  | popSome hd =>
    refine Or.inl fun own ho => ⟨own, List.Sublist.refl _, ?_⟩
    obtain rfl : own = _ := ho
    rw [Deque.eq_push_of_pop hd]
    simp [Pc.Owns, Pool.setDeque, Deque.push]
  -- only a worker that has found its own deque empty steals
  | stealSome _ hd => exact Or.inr ⟨trivial, _, _, _, hd, rfl, Or.inl rfl⟩
  | recheckSome _ hd => exact Or.inr ⟨trivial, _, _, _, hd, rfl, Or.inr rfl⟩
  | addDirs =>
    exact Or.inl fun own ho =>
      ⟨own, List.Sublist.refl _, _, [], (List.append_nil _).symm, ho⟩
  | @push _ c _ cs =>
    refine Or.inl ?_
    rintro _ ⟨older, new, hitems, rfl⟩
    refine ⟨_, List.Sublist.refl _, older, new ++ [c], ?_, by simp⟩
    simp [Pool.push, Pool.setDeque, Deque.push, hitems]
  | pushDone =>
    refine Or.inl ?_
    rintro _ ⟨older, new, hitems, rfl⟩
    exact ⟨_, List.Sublist.refl _, older, new, hitems, by simp⟩
  | subDirs =>
    refine Or.inl ?_
    rintro _ ⟨older, new, hitems, rfl⟩
    exact ⟨older ++ new, (List.Sublist.refl _).append (List.sublist_cons_self _ _), hitems.symm⟩
  | _ => exact Or.inl fun own ho => ⟨own, List.Sublist.refl _, ho⟩

/-! ### Whole runs -/

variable {W : Walk T} {M : Memory n T} {seeds : Fin n → List T} {s : State n T}

/-- Every worker holds layers. -/
def State.Layers (At : ℕ → T → Prop) (w : ℕ → ℕ) (s : State n T) : Prop :=
  ∀ i, Holds At w (s.pc i) (s.pool.deque i).items

/-- **Every step keeps the layers.** -/
theorem Step.layers {s' : State n T} (h : Step W M s e s') (hW : W.Graded At w)
    (hempty : ∀ i, (s.pc i).Drained → (s.pool.deque i).items = []) (hs : s.Layers At w) :
    s'.Layers At w := by
  intro j
  cases h with
  | @walk i t cs hpc hcs =>
    by_cases hj : j = i
    · subst hj
      have hj := hs j
      rw [hpc] at hj
      rw [State.publish, State.set_pc_self, State.set_pool]
      exact hj.publish hW hcs
    · rw [State.publish, State.set_pc_of_ne _ _ _ hj, State.set_pool]
      exact hs j
  | @op _ i r _ hM hop =>
    have hwalk := State.not_walk_of_op hop
    obtain ⟨m', p', ht, rfl⟩ := State.transition_of_op hop
    by_cases hj : j = i
    · subst hj
      rw [State.set_pc_self, State.set_pool]
      rcases ht.owns hwalk with hown | ⟨hd, k, x, d, hsteal, rfl, hp'⟩
      · exact (hs j).mono hown
      -- a thief gives up what it answered for, which was nothing, for the item stolen
      · have hk := hs k
        rw [Deque.items_of_steal hsteal] at hk
        rw [Pool.setDeque_empty hsteal (hempty j hd)]
        rcases hp' with rfl | rfl <;> exact hk.stolen
    · rw [State.set_pc_of_ne _ _ _ hj, State.set_pool]
      rcases ht.items_of_ne hj with heq | ⟨x, hx⟩
      · rw [heq]
        exact hs j
      · have hj' := hs j
        rw [hx] at hj'
        exact hj'.mono fun own ho => ho.steal

/-- **What a worker answers for is layered in every reachable state.** -/
theorem layers_of_reachable (hW : W.Graded At w)
    (hseeds : ∀ i, Holds At w (.pop : Pc T) (seeds i))
    (h : (lts W M).Reachable (.init seeds) s) : s.Layers At w :=
  h.invariant hseeds fun _ _ _ hr hs hst => hst.layers hW (fun _ => ownDeque_empty hr) hs

/-- **The items of a deque are in the order of their levels.** -/
theorem deque_layered (hW : W.Graded At w) (hseeds : ∀ i, Holds At w (.pop : Pc T) (seeds i))
    (h : (lts W M).Reachable (.init seeds) s) (i : Fin n) :
    ∃ xs, Layered At w xs ∧ xs.map Prod.snd = (s.pool.deque i).items := by
  obtain ⟨xs, hxs, ho⟩ := (layers_of_reachable hW hseeds h i).mono (q := .pop)
    fun own ho => ⟨_, ho.sublist, rfl⟩
  exact ⟨xs, hxs, ho⟩

/-- **`dir_pending` is bounded by the widths of the levels, for each worker once.** -/
theorem dirPending_le (hW : W.Graded At w) (hseeds : ∀ i, Holds At w (.pop : Pc T) (seeds i))
    {H : ℕ} (hH : ∀ k t, At k t → k ≤ H) (h : (lts W M).Reachable (.init seeds) s) :
    s.pool.dirPending ≤ n * ∑ k ∈ Finset.range (H + 1), w k := by
  have hone : ∀ i, (s.pool.deque i).items.length + (s.pc i).inHand.card +
      (s.pc i).unpushed.length ≤ ∑ k ∈ Finset.range (H + 1), w k := by
    intro i
    obtain ⟨xs, hxs, ho⟩ := layers_of_reachable hW hseeds h i
    calc _ ≤ (xs.map Prod.snd).length := ho.length_le
      _ = xs.length := List.length_map _
      _ ≤ _ := hxs.length_le fun a ha => hH a.1 a.2 (hxs.at_level a ha)
  have hcard : s.pool.queued.card = ∑ i, (s.pool.deque i).items.length := by
    simp [Pool.queued, Deque.total, Deque.bag, Multiset.card_sum]
  have hheld : s.held.card = ∑ i, (s.pc i).inHand.card := Multiset.card_sum _ _
  rw [show s.pool.dirPending = _ from counter_exact h, hcard, hheld, State.unpushed,
    ← Finset.sum_add_distrib, ← Finset.sum_add_distrib]
  refine (Finset.sum_le_sum fun i _ => hone i).trans ?_
  simp

end Queue

end Pfind
