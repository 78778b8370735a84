import Pfind.Queue.Quiescence

/-!
# The pool never deadlocks

A worker is blocked when it is in `parker.park()` and its parker holds no permit.

* `ownDeque_empty` : a worker that has failed to pop has an empty deque until it next gets an
  item, since nobody else pushes on it.
* `signal_pending` : at a zero counter, for every blocked worker some other worker is on its way
  to the shutdown broadcast, and has not unparked the blocked one yet.  The worker that brings
  the counter to zero starts out on this way.
* `not_deadlocked` : hence it never happens that every worker which has not returned is blocked:
  with all deques empty and nothing in hand the counter would be zero.
* `deadlock_free` : **a run that cannot be extended ends with all workers returned** and all items
  walked, even if every `maybe_unpark` sees an arbitrary value of `parked_count`.
-/

namespace Pfind

namespace Queue

open Function

variable {n : ℕ} {T : Type*}

/-- Worker `i` is blocked in `park`. -/
def State.Blocked (s : State n T) (i : Fin n) : Prop := s.pc i = .park ∧ s.pool.permit i = false

/-- The worker has failed to pop, and has not got an item since. -/
def Pc.Drained : Pc T → Prop
  | .steal _ | .announce | .recheck _ | .quiesce | .leave | .signal | .broadcast _ | .park
  | .unparked | .checkShutdown | .returned => True
  | _ => False

/-- At a zero counter, the worker is on its way to unparking worker `b` in `signal_shutdown`. -/
def Pc.WillSignal (b : Fin n) : Pc T → Prop
  | .pop | .steal _ | .announce | .recheck _ | .quiesce | .leave | .signal => True
  | .broadcast k => k ≤ b
  | _ => False

theorem drained_publish (t : T) (cs : List T) : ¬ (Pc.publish t cs).Drained := by
  cases cs <;> exact id

/-! ### One transition -/

section Transition

variable {i b : Fin n} {r : Reading} {m m' : Pool n T} {p p' : Pc T} {e : Event T}

theorem Pool.setDeque_empty {j j' : Fin n} {t : T} {d : Deque T}
    (hd : (m.deque j').steal = some (t, d)) (hj : (m.deque j).items = []) :
    ((m.setDeque j' d).deque j).items = [] := by
  by_cases hjj : j = j'
  · subst hjj
    rw [Deque.items_of_steal hd] at hj
    cases hj
  · simpa [Pool.setDeque, hjj] using hj

theorem Transition.deque_of_ne (h : Transition i r m p e m' p') {j : Fin n} (hji : j ≠ i)
    (hj : (m.deque j).items = []) : (m'.deque j).items = [] := by
  cases h with
  | popSome | push => simpa [Pool.push, Pool.setDeque, hji] using hj
  | stealSome _ hd | recheckSome _ hd => exact Pool.setDeque_empty hd hj
  | _ => exact hj

theorem Transition.deque_self (h : Transition i r m p e m' p')
    (hp : p.Drained → (m.deque i).items = []) (hp' : p'.Drained) : (m'.deque i).items = [] := by
  cases h with
  | popNone he => exact he
  | @walk t cs => exact (drained_publish t cs hp').elim
  | _ => first | exact hp trivial | exact hp'.elim

theorem Transition.permit (h : Transition i r m p e m' p') (hb : m'.permit b = false) :
    m.permit b = false ∨ b = i ∧ p = .park := by
  cases h with
  | park =>
    by_cases hbi : b = i
    · exact Or.inr ⟨hbi, rfl⟩
    · exact Or.inl (by simpa [Pool.takePermit, hbi] using hb)
  | @broadcast k hk | @unparkAll _ k hk =>
    by_cases hbk : b = ⟨k, hk⟩
    · simp [Pool.unpark, hbk] at hb
    · exact Or.inl (by simpa [Pool.unpark, hbk] using hb)
  | _ => exact Or.inl hb

theorem Transition.to_park (h : Transition i r m p e m' p') (hp : p' = .park) :
    m.dirPending ≠ 0 := by
  cases h with
  | quiescePos hne => exact hne
  | @walk t cs => cases cs <;> cases hp
  | _ => cases hp

theorem Transition.to_zero (h : Transition i r m p e m' p') (hz : m'.dirPending = 0) :
    m.dirPending = 0 ∨ p' = .pop := by
  cases h with
  | subDirs => exact Or.inr rfl
  | addDirs => exact Or.inl (Nat.eq_zero_of_add_eq_zero_right hz)
  | _ => exact Or.inl hz

theorem Pool.ahead_or_unparked {k : ℕ} (hk : k < n) (hkb : k ≤ b) :
    k + 1 ≤ b ∨ (m.unpark ⟨k, hk⟩).permit b = true := by
  by_cases hb : b = ⟨k, hk⟩
  · exact Or.inr (by simp [Pool.unpark, hb])
  · have hne : k ≠ b := fun h => hb (Fin.ext h.symm)
    exact Or.inl (Nat.lt_of_le_of_ne hkb hne)

/-- At a zero counter a worker on its way to unparking `b` goes on, or unparks `b`. -/
theorem Transition.willSignal (h : Transition i r m p e m' p') (hp : p.WillSignal b)
    (hz : m.dirPending = 0) (hin : p'.inHand = 0) : p'.WillSignal b ∨ m'.permit b = true := by
  cases h with
  | popSome | stealSome | recheckSome => simp [Pc.inHand] at hin
  | quiescePos hne => exact absurd hz hne
  | signal => exact Or.inl (Nat.zero_le _)
  | broadcast hk => exact Pool.ahead_or_unparked hk hp
  | broadcastDone hk => exact absurd hp (Nat.not_le.2 (Nat.lt_of_lt_of_le b.isLt hk))
  | _ => first | exact Or.inl trivial | exact hp.elim

end Transition

/-! ### The invariants -/

variable {W : Walk T} {M : Memory n T} {seeds : Fin n → List T} {s : State n T}

/-- **A drained worker has an empty deque.** -/
theorem ownDeque_empty (h : (lts W M).Reachable (.init seeds) s) {i : Fin n}
    (hi : (s.pc i).Drained) : (s.pool.deque i).items = [] := by
  refine h.invariant (I := fun s => ∀ i, (s.pc i).Drained → (s.pool.deque i).items = []) ?_ ?_ i hi
  · exact fun i hi => hi.elim
  · intro s e s' _ ih hst j hj
    obtain ⟨i, r, m', p', ht, rfl, -⟩ := hst.cases
    by_cases hji : j = i
    · subst hji
      rw [State.set_pc_self] at hj
      exact ht.deque_self (ih j) hj
    · rw [State.set_pc_of_ne _ _ _ hji] at hj
      exact ht.deque_of_ne hji (ih j hj)

/-- **A blocked worker will be woken**: at a zero counter some worker is on its way to unparking
it. -/
theorem signal_pending (h : (lts W M).Reachable (.init seeds) s) (hz : s.pool.dirPending = 0)
    {b : Fin n} (hb : s.Blocked b) : ∃ a, (s.pc a).WillSignal b := by
  refine h.invariant (I := fun s => s.pool.dirPending = 0 → ∀ b, s.Blocked b →
    ∃ a, (s.pc a).WillSignal b) ?_ ?_ hz b hb
  · exact fun _ b hb => nomatch hb.1
  · intro s e s' hr ih hst hz' b hb
    have hr' := hr.tail hst
    obtain ⟨i, r, m', p', ht, rfl, -⟩ := hst.cases
    obtain ⟨hpark, hperm⟩ := hb
    rcases ht.to_zero hz' with hz | rfl
    · have hbi : b ≠ i := by
        rintro rfl
        rw [State.set_pc_self] at hpark
        exact ht.to_park hpark hz
      rw [State.set_pc_of_ne _ _ _ hbi] at hpark
      have hperm' : s.pool.permit b = false :=
        (ht.permit hperm).resolve_right fun hh => hbi hh.1
      obtain ⟨a, ha⟩ := ih hz b ⟨hpark, hperm'⟩
      by_cases hai : a = i
      · subst hai
        have hin := (counter_exact hr').inHand_eq_zero hz' a
        rw [State.set_pc_self] at hin
        refine ⟨a, ?_⟩
        rw [State.set_pc_self]
        refine (ht.willSignal ha hz hin).resolve_right fun htrue => ?_
        rw [State.set_pool, htrue] at hperm
        cases hperm
      · exact ⟨a, by rwa [State.set_pc_of_ne _ _ _ hai]⟩
    · -- worker `i` has just brought the counter to zero
      exact ⟨i, by rw [State.set_pc_self]; trivial⟩

theorem dirPending_of_idle (h : (lts W M).Reachable (.init seeds) s)
    (hidle : ∀ i, s.pc i = .returned ∨ s.Blocked i) : s.pool.dirPending = 0 := by
  have hpc : ∀ i, s.pc i = .returned ∨ s.pc i = .park := fun i =>
    (hidle i).imp_right fun hb => hb.1
  have hq : s.pool.queued = 0 := Deque.total_eq_zero.2 fun i =>
    ownDeque_empty h (by rcases hpc i with hi | hi <;> rw [hi] <;> trivial)
  have hh : s.held = 0 := Finset.sum_eq_zero fun i _ => by
    rcases hpc i with hi | hi <;> rw [hi] <;> rfl
  have hu : s.unpushed = 0 := Finset.sum_eq_zero fun i _ => by
    rcases hpc i with hi | hi <;> rw [hi] <;> rfl
  have hx := counter_exact h
  rw [State.Exact, hq, hh, hu] at hx
  exact hx

/-- **No deadlock**: a worker that has not returned never finds all such workers blocked. -/
theorem not_deadlocked (h : (lts W M).Reachable (.init seeds) s) :
    ¬ ((∃ i, s.pc i ≠ .returned) ∧ ∀ i, s.pc i ≠ .returned → s.Blocked i) := by
  rintro ⟨⟨b, hb⟩, hall⟩
  have hidle : ∀ i, s.pc i = .returned ∨ s.Blocked i := fun i =>
    or_iff_not_imp_left.2 (hall i)
  obtain ⟨a, ha⟩ := signal_pending h (dirPending_of_idle h hidle) (hall b hb)
  rcases hidle a with hi | ⟨hi, -⟩ <;> rw [hi] at ha <;> exact ha.elim

theorem idle_of_stuck (hM : ∀ s i, M.allows s i s.pool.reading) (hs : (lts W M).Stuck s)
    (i : Fin n) : s.pc i = .returned ∨ s.Blocked i := by
  have hnone : s.op i s.pool.reading = none := by
    cases hop : s.op i s.pool.reading with
    | none => rfl
    | some x => exact (hs _ _ (.op (hM s i) hop)).elim
  rcases workerLoop_eq_none (Option.map_eq_none_iff.1 hnone) with hi | ⟨t, hi⟩ | hi
  · exact Or.inl hi
  · obtain ⟨cs, hcs⟩ := W.total t
    exact (hs _ _ (.walk hi hcs)).elim
  · exact Or.inr hi

/-- **The pool never deadlocks**, whatever value of `parked_count` each `maybe_unpark` sees; and
a run that cannot be extended ends with all workers returned and all items walked. -/
theorem deadlock_free (W : Walk T) (seeds : Fin n → List T) {es : List (Event T)} {s : State n T}
    (h : (lts W .stale).Run (.init seeds) es s) :
    ¬ ((∃ i, s.pc i ≠ .returned) ∧ ∀ i, s.pc i ≠ .returned → s.Blocked i) ∧
      ((lts W .stale).Stuck s → (∀ i, s.pc i = .returned) ∧ AllWalked seeds es s) := by
  refine ⟨not_deadlocked h.reachable, fun hs => ?_⟩
  have hidle := idle_of_stuck (fun _ _ => rfl) hs
  refine ⟨fun i => ?_, allWalked_of_zero h (dirPending_of_idle h.reachable hidle)⟩
  by_contra hi
  exact not_deadlocked h.reachable ⟨⟨i, hi⟩, fun j hj => (hidle j).resolve_left hj⟩

theorem stale_of_sc (s : State n T) (e : Event T) (s' : State n T) (h : (lts W .sc).step s e s') :
    (lts W .stale).step s e s' := by
  cases h with
  | op hr hop => subst hr; exact .op (r := s.pool.reading) rfl hop
  | walk hpc hcs => exact .walk hpc hcs

/-- Worker 1 sleeps while worker 0 walks the only item. -/
theorem deadlock_free_two :
    ∃ es s, LTS.exec (State.next fun _ => []) [0, 1, 1, 1, 1, 1, 1, 1]
        (.init fun i : Fin 2 => if i = 0 then [1] else []) = some (es, s) ∧ s.Blocked 1 ∧
      ¬ ((∃ i, s.pc i ≠ .returned) ∧ ∀ i, s.pc i ≠ .returned → s.Blocked i) := by
  obtain ⟨es, s, hx, hr, hs⟩ := LTS.Run.of_exec_map step_of_next
    (show (LTS.exec (State.next fun _ => []) [0, 1, 1, 1, 1, 1, 1, 1]
        (.init fun i : Fin 2 => if i = 0 then [1] else [])).map
        (fun x => (x.2.pc 1, x.2.pool.permit 1)) = some (.park, false) by decide)
  simp only [Prod.mk.injEq] at hs
  exact ⟨es, s, hx, hs, (deadlock_free _ _ (hr.mono stale_of_sc)).1⟩

end Queue

end Pfind
