import Pfind.Queue.Deadlock

/-!
# No lost wake-up

A worker that is about to sleep announces itself and then looks at every peer once more; a worker
that has pushed looks afterwards whether somebody has announced itself.

* `Pc.Publishing b` : the worker has pushed, and has not unparked worker `b` yet.
* `Pc.Swept b a` : worker `b` has looked at the deque of worker `a` in its re-check, or is behind
  its re-check.
* `Step.covered` : every step preserves the **handshake invariant** that a deque which a sweep has
  found empty and which holds an item again belongs to a worker that is publishing.  The sweep is
  not a snapshot, so the invariant speaks about the peers one by one.
* `no_lost_wakeup` : **if a worker sleeps while the deque of another holds an item, the other is
  between its first push and the moment at which `maybe_unpark` unparks the sleeper**.

The memory may be weaker than sequentially consistent in one respect, `Memory.handshake`: a steal
may overlook an item, but a re-check only if the thief holds a permit, or the owner of the item is
still going to unpark it.
-/

namespace Pfind

namespace Queue

open Function

variable {n : ℕ} {T : Type*}

/-- The worker has pushed at least once in its publish section, and `maybe_unpark` has not
unparked worker `b` yet. -/
def Pc.Publishing (b : Fin n) : Pc T → Prop
  | .push _ k _ => 0 < k
  | .maybeUnpark _ => True
  | .unparkAll _ k => k ≤ b
  | _ => False

/-- Worker `b` has looked at the deque of `a` in its re-check. -/
def Pc.Swept (b a : Fin n) : Pc T → Prop
  | .recheck k => ∃ j, 1 ≤ j ∧ j < k ∧ peer b j = a
  | .quiesce | .park => True
  | _ => False

/-- The handshake between sleepers and producers: a deque that has been swept and holds an item
belongs to a worker that is going to unpark the sweeper, unless the sweeper has a permit. -/
def State.Covered (s : State n T) : Prop :=
  ∀ b a, (s.pc b).Swept b a → s.pool.permit b = false → (s.pool.deque a).items ≠ [] →
    (s.pc a).Publishing b

/-- Loads of `parked_count` are exact, and a re-check overlooks the items of a peer only while
the thief holds a permit, or the peer is going to unpark it. -/
def Memory.handshake : Memory n T := ⟨fun s i r =>
  r.parked = s.pool.parkedCount ∧ ∀ k, s.pc i = .recheck k → r.missed = true →
    s.pool.permit i = true ∨ (s.pc (peer i k)).Publishing i⟩

theorem not_swept_publish {b a : Fin n} (t : T) (cs : List T) : ¬ (Pc.publish t cs).Swept b a := by
  cases cs <;> exact id

theorem Pc.Swept.drained {b a : Fin n} {p : Pc T} (h : p.Swept b a) : p.Drained := by
  cases p <;> trivial

theorem Pc.Swept.announced {b a : Fin n} {p : Pc T} (h : p.Swept b a) : p.announced = 1 := by
  cases p <;> first | rfl | exact h.elim

theorem exists_peer {b a : Fin n} (hab : a ≠ b) : ∃ j, 1 ≤ j ∧ j < n ∧ peer b j = a := by
  have ha := a.isLt
  have hb := b.isLt
  have hne : (a : ℕ) ≠ b := fun h => hab (Fin.ext h)
  rcases Nat.lt_or_gt_of_ne hne with hlt | hgt
  · refine ⟨a + n - b, by omega, by omega, Fin.ext ?_⟩
    show (b + (a + n - b)) % n = a
    rw [show (b : ℕ) + (a + n - b) = a + n by omega, Nat.add_mod_right, Nat.mod_eq_of_lt ha]
  · refine ⟨a - b, by omega, by omega, Fin.ext ?_⟩
    show (b + (a - b)) % n = a
    rw [show (b : ℕ) + (a - b) = a by omega, Nat.mod_eq_of_lt ha]

/-! ### One transition -/

section Transition

variable {i a b : Fin n} {r : Reading} {m m' : Pool n T} {p p' : Pc T} {e : Event T}

/-- A worker that is publishing goes on, or unparks `b`, provided that it sees `b` announced. -/
theorem Transition.publishing (h : Transition i r m p e m' p') (hp : p.Publishing b)
    (hr : 0 < r.parked) : p'.Publishing b ∨ m'.permit b = true := by
  cases h with
  | push => exact Or.inl (Nat.succ_pos _)
  | pushDone => exact Or.inl trivial
  | parkedSeen => exact Or.inl (Nat.zero_le _)
  | parkedUnseen hz => omega
  | unparkAll hk => exact Pool.ahead_or_unparked hk hp
  | unparkAllDone hk => exact absurd hp (Nat.not_le.2 (Nat.lt_of_lt_of_le b.isLt hk))
  | _ => exact hp.elim

theorem Transition.publishing_of_deque (h : Transition i r m p e m' p')
    (he : (m.deque i).items = []) (hne : (m'.deque i).items ≠ []) : p'.Publishing b := by
  cases h with
  | push => exact Nat.succ_pos _
  | popSome hd => exact absurd (Deque.pop_eq_none.2 he) (by simp [hd])
  | stealSome _ hd | recheckSome _ hd => exact absurd (Pool.setDeque_empty hd he) hne
  | _ => exact absurd he hne

/-- One more peer swept: it was swept before, or its deque is empty, or overlooked. -/
theorem Transition.swept (h : Transition i r m p e m' p') (hp : p'.Swept i a) :
    m' = m ∧ p.Swept i a ∨ a = i ∨ (m'.deque a).items = [] ∨
      ∃ k, p = .recheck k ∧ peer i k = a ∧ r.missed = true := by
  cases h with
  | announce =>
    obtain ⟨j, h1, hj, -⟩ := hp
    omega
  | @recheckNone k hk hd =>
    obtain ⟨j, h1, hj, hja⟩ := hp
    rcases Nat.lt_succ_iff_lt_or_eq.1 hj with hlt | rfl
    · exact Or.inl ⟨rfl, j, h1, hlt, hja⟩
    · rcases hd with hd | hd
      · exact Or.inr (Or.inr (Or.inr ⟨j, rfl, hja, hd⟩))
      · exact Or.inr (Or.inr (Or.inl (hja ▸ hd)))
  | @recheckDone k hk =>
    by_cases hai : a = i
    · exact Or.inr (Or.inl hai)
    · obtain ⟨j, h1, hj, hja⟩ := exists_peer hai
      exact Or.inl ⟨rfl, j, h1, Nat.lt_of_lt_of_le hj hk, hja⟩
  | quiescePos => exact Or.inl ⟨rfl, trivial⟩
  | @walk t cs => exact (not_swept_publish t cs hp).elim
  | _ => exact hp.elim

end Transition

/-! ### The handshake invariant -/

variable {W : Walk T} {M : Memory n T} {seeds : Fin n → List T} {s s' : State n T} {e : Event T}

theorem Step.covered (hM : ∀ s i r, M.allows s i r → Memory.handshake.allows s i r)
    (hr : (lts W M).Reachable (.init seeds) s) (hs : s.Covered) (h : Step W M s e s') :
    s'.Covered := by
  have hr' := hr.tail h
  obtain ⟨i, r, m', p', ht, rfl, hmem⟩ := h.cases
  have hread : (∀ t, s.pc i ≠ .walk t) → Memory.handshake.allows s i r := fun hw =>
    hM _ _ _ (hmem.resolve_right fun ⟨t, _, hpc, _⟩ => hw t hpc)
  intro b a hsw hperm hne
  by_cases hbi : b = i
  · -- the sweeper itself moves
    subst hbi
    rw [State.set_pc_self] at hsw
    have hab : a ≠ b := by
      rintro rfl
      exact hne (ownDeque_empty hr' (by rw [State.set_pc_self]; exact hsw.drained))
    rw [State.set_pc_of_ne _ _ _ hab]
    rcases ht.swept hsw with ⟨rfl, hold⟩ | hab' | hd | ⟨k, hk, rfl, hmiss⟩
    · exact hs b a hold hperm hne
    · exact (hab hab').elim
    · exact (hne hd).elim
    · -- a permit that the thief held would still be there
      have hpermit : s.pool.permit b = false :=
        (ht.permit hperm).resolve_right fun hpark => by rw [hk] at hpark; cases hpark.2
      have hread' := (hread fun t => by rw [hk]; exact nofun).2 k hk hmiss
      exact hread'.resolve_left (by rw [hpermit]; exact Bool.false_ne_true)
  · rw [State.set_pc_of_ne _ _ _ hbi] at hsw
    have hperm' : s.pool.permit b = false := (ht.permit hperm).resolve_right fun hh => hbi hh.1
    by_cases hai : a = i
    · -- the owner of the deque moves
      subst hai
      rw [State.set_pc_self]
      by_cases he : (s.pool.deque a).items = []
      · exact ht.publishing_of_deque he hne
      · have hpub := hs b a hsw hperm' he
        have hpos : 0 < r.parked := by
          rw [(hread fun t hw => by rw [hw] at hpub; exact hpub).1]
          exact parkedCount_pos hr hsw.announced
        refine (ht.publishing hpub hpos).resolve_right fun htrue => ?_
        rw [State.set_pool, htrue] at hperm
        cases hperm
    · rw [State.set_pc_of_ne _ _ _ hai]
      exact hs b a hsw hperm' fun he => hne (ht.deque_of_ne hai he)

/-- **The handshake invariant.** -/
theorem covered (hM : ∀ s i r, M.allows s i r → Memory.handshake.allows s i r)
    (h : (lts W M).Reachable (.init seeds) s) : s.Covered :=
  h.invariant (fun _ _ hb _ _ => hb.elim) fun _ _ _ hr hs hst => hst.covered hM hr hs

/-- **No lost wake-up**: while a worker sleeps, only the deques of workers that are publishing,
and have not unparked it yet, hold items. -/
theorem no_lost_wakeup (hM : ∀ s i r, M.allows s i r → Memory.handshake.allows s i r)
    (h : (lts W M).Reachable (.init seeds) s) {a b : Fin n} (hb : s.Blocked b)
    (ha : (s.pool.deque a).items ≠ []) : (s.pc a).Publishing b :=
  covered hM h b a (by rw [hb.1]; trivial) hb.2 ha

theorem handshake_of_sc (s : State n T) (i : Fin n) (r : Reading) (h : Memory.sc.allows s i r) :
    Memory.handshake.allows s i r := by
  subst h
  exact ⟨rfl, fun _ _ hm => nomatch hm⟩

end Queue

end Pfind
