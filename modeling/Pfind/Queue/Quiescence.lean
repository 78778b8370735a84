import Mathlib.Data.Multiset.Fintype
import Pfind.Queue.Transition

/-!
# The quiescence counter, and why no worker leaves early

An item is in a deque, in the hands of a worker (`Pc.inHand`: taken, its walk not yet at the
end), or done with.  Children that have been added to `dir_pending` but not been pushed are
counted ahead of time (`Pc.unpushed`).

* `counter_exact` : in every reachable state `dir_pending` is the number of items in deques, plus
  the number of items in hand, plus the number of children announced and not yet pushed.
* `subDirs_pos`, `dirPending_stays_zero` : hence `sub_dirs` never wraps the counter, and a
  counter that has reached zero stays there.
* `parkedCount_exact` : `parked_count` is the number of workers between their `fetch_add` and the
  matching `fetch_sub`.
* `no_premature_exit` : **once a worker has returned or `shutdown` is set, every item ever seeded
  or pushed has been taken exactly once and walked to its end**, the deques are empty, and this
  stays so.

All of this holds for every walk and every memory model: it does not depend on what
`maybe_unpark` reads, nor on which items a steal overlooks.
-/

namespace Pfind

namespace Queue

open Function

variable {n : ℕ} {T : Type*}

/-! ### Where an item can be -/

/-- The item that a worker has taken and not yet finished. -/
def Pc.inHand : Pc T → Multiset T
  | .found t | .walk t | .addDirs t _ | .push t _ _ | .maybeUnpark t | .unparkAll t _
  | .subDirs t => {t}
  | _ => 0

/-- The children announced by `add_dirs` and not yet pushed. -/
def Pc.unpushed : Pc T → List T
  | .push _ _ cs => cs
  | _ => []

/-- The worker is between its `parked_count.fetch_add(1)` and the matching `fetch_sub(1)`. -/
def Pc.announced : Pc T → ℕ
  | .recheck _ | .found _ | .quiesce | .leave | .park | .unparked => 1
  | _ => 0

/-- The worker has seen quiescence, or has returned. -/
def Pc.Leaving : Pc T → Prop
  | .leave | .signal | .broadcast _ | .returned => True
  | _ => False

/-- The item taken in a step. -/
def Event.takes : Event T → Multiset T
  | .took t => {t}
  | _ => 0

/-- The item pushed in a step. -/
def Event.pushes : Event T → Multiset T
  | .pushed t => {t}
  | _ => 0

/-- The item whose walk ended in a step. -/
def Event.finishes : Event T → Multiset T
  | .finished t => {t}
  | _ => 0

/-- The items in hand. -/
def State.held (s : State n T) : Multiset T := ∑ i, (s.pc i).inHand

/-- The number of children announced and not yet pushed. -/
def State.unpushed (s : State n T) : ℕ := ∑ i, (s.pc i).unpushed.length

/-- The number of workers that have announced themselves. -/
def State.announced (s : State n T) : ℕ := ∑ i, (s.pc i).announced

@[simp] theorem inHand_publish (t : T) (cs : List T) : (Pc.publish t cs).inHand = {t} := by
  cases cs <;> rfl

@[simp] theorem unpushed_publish (t : T) (cs : List T) : (Pc.publish t cs).unpushed = [] := by
  cases cs <;> rfl

@[simp] theorem announced_publish (t : T) (cs : List T) : (Pc.publish t cs).announced = 0 := by
  cases cs <;> rfl

theorem leaving_publish (t : T) (cs : List T) : ¬ (Pc.publish t cs).Leaving := by
  cases cs <;> exact id

/-! ### One transition -/

section Transition

variable {i : Fin n} {r : Reading} {m m' : Pool n T} {p p' : Pc T} {e : Event T}

theorem Transition.queued (h : Transition i r m p e m' p') :
    m'.queued + e.takes = m.queued + e.pushes := by
  cases h with
  | popSome hd =>
    simp [Pool.queued, Pool.setDeque, Event.takes, Event.pushes, Deque.total_pop hd, add_comm]
  | stealSome _ hd | recheckSome _ hd =>
    simp [Pool.queued, Pool.setDeque, Event.takes, Event.pushes, Deque.total_steal hd, add_comm]
  | push => simp [Pool.queued, Pool.push, Pool.setDeque, Event.takes, Event.pushes, add_comm]
  | _ => rfl

theorem Transition.inHand (h : Transition i r m p e m' p') :
    p'.inHand + e.finishes = p.inHand + e.takes := by
  cases h with
  | walk => rw [inHand_publish]; rfl
  | _ => rfl

theorem Pool.fetchSub_add {x k : ℕ} (h : k ≤ x) : fetchSub x k + k = x := by
  simp only [fetchSub, h, if_true]; omega

theorem Transition.parkedCount (h : Transition i r m p e m' p') (hp : p.announced ≤ m.parkedCount) :
    m'.parkedCount + p.announced = m.parkedCount + p'.announced := by
  cases h with
  | found | leave | unparked => exact Pool.fetchSub_add hp
  | walk => rw [announced_publish]; rfl
  | _ => rfl

theorem Transition.dirPending (h : Transition i r m p e m' p')
    (hp : p.inHand.card ≤ m.dirPending) :
    m'.dirPending + (m.queued.card + p.inHand.card + p.unpushed.length) =
      m.dirPending + (m'.queued.card + p'.inHand.card + p'.unpushed.length) := by
  have hq := congrArg Multiset.card h.queued
  simp only [Multiset.card_add] at hq
  cases h with
  | subDirs =>
    have := Pool.fetchSub_add hp
    simp only [Pc.inHand, Pc.unpushed, Pool.subDirs, Event.takes, Event.pushes,
      Multiset.card_singleton, Multiset.card_zero, List.length_nil] at hq this ⊢
    omega
  | walk => rw [inHand_publish, unpushed_publish]; rfl
  | _ =>
    simp only [Pc.inHand, Pc.unpushed, Event.takes, Event.pushes, Pool.addDirs, Pool.announce,
      Pool.retract, Pool.setShutdown, Pool.unpark, Pool.takePermit, Pool.push, Pool.setDeque,
      Pool.queued, Multiset.card_singleton, Multiset.card_zero, List.length_nil,
      List.length_cons] at hq ⊢ <;> omega

theorem Transition.dirPending_eq (h : Transition i r m p e m' p') (hp : p.inHand = 0) :
    m'.dirPending = m.dirPending := by
  cases h with
  | addDirs | subDirs => simp [Pc.inHand] at hp
  | _ => rfl

/-- Nobody leaves, and `shutdown` is not set, before `dir_pending` has been seen at zero. -/
theorem Transition.leaving (h : Transition i r m p e m' p')
    (hp : m'.shutdown = true ∨ p'.Leaving) :
    m.shutdown = true ∨ p.Leaving ∨ m.dirPending = 0 := by
  cases h with
  | quiesceZero hz => exact Or.inr (Or.inr hz)
  | shutdownSeen hs => exact Or.inl hs
  | leave | signal | broadcast | broadcastDone => exact Or.inr (Or.inl trivial)
  | @walk t cs => exact Or.inl (hp.resolve_right (leaving_publish t cs))
  | _ => exact Or.inl (hp.resolve_right id)

end Transition

/-! ### The counters -/

variable {W : Walk T} {M : Memory n T} {seeds : Fin n → List T} {s s' : State n T} {e : Event T}

/-- `dir_pending` is exact. -/
def State.Exact (s : State n T) : Prop :=
  s.pool.dirPending = s.pool.queued.card + s.held.card + s.unpushed

theorem State.card_inHand_le (s : State n T) (i : Fin n) : (s.pc i).inHand.card ≤ s.held.card := by
  rw [held, Multiset.card_sum]
  exact Threads.le_sum_apply (fun i => (s.pc i).inHand.card) i

theorem exact_init (seeds : Fin n → List T) : (State.init seeds).Exact := by
  simp [State.Exact, State.init, Pool.seeded, Pool.queued, Deque.total, Deque.bag, State.held,
    State.unpushed, Pc.inHand, Pc.unpushed, Multiset.card_sum]

theorem Step.exact (h : Step W M s e s') (hs : s.Exact) : s'.Exact := by
  obtain ⟨i, r, m', p', ht, rfl, -⟩ := h.cases
  unfold State.Exact at hs ⊢
  have hle := s.card_inHand_le i
  have hd := ht.dirPending (by omega)
  have h1 := congrArg Multiset.card (Threads.sum_update_add Pc.inHand s.pc i p')
  have h2 := Threads.sum_update_add (fun p : Pc T => p.unpushed.length) s.pc i p'
  simp only [Multiset.card_add, State.held, State.unpushed, State.set] at hs h1 h2 ⊢
  omega

/-- **The quiescence counter is exact** in every reachable state. -/
theorem counter_exact (h : (lts W M).Reachable (.init seeds) s) : s.Exact :=
  h.invariant (exact_init seeds) fun _ _ _ _ hs hst => hst.exact hs

theorem subDirs_pos (h : (lts W M).Reachable (.init seeds) s) {i : Fin n} {t : T}
    (hpc : s.pc i = .subDirs t) : 0 < s.pool.dirPending := by
  have hx := counter_exact h
  have hle := s.card_inHand_le i
  rw [hpc] at hle
  simp only [State.Exact, Pc.inHand, Multiset.card_singleton] at hx hle
  omega

theorem State.Exact.of_zero (hs : s.Exact) (hz : s.pool.dirPending = 0) :
    s.pool.queued = 0 ∧ s.held = 0 := by
  unfold State.Exact at hs
  exact ⟨Multiset.card_eq_zero.1 (by omega), Multiset.card_eq_zero.1 (by omega)⟩

theorem State.Exact.inHand_eq_zero (hs : s.Exact) (hz : s.pool.dirPending = 0) (i : Fin n) :
    (s.pc i).inHand = 0 := by
  have hle := s.card_inHand_le i
  rw [(hs.of_zero hz).2, Multiset.card_zero] at hle
  exact Multiset.card_eq_zero.1 (Nat.le_zero.1 hle)

theorem Step.dirPending_zero (h : Step W M s e s') (hs : s.Exact) (hz : s.pool.dirPending = 0) :
    s'.pool.dirPending = 0 := by
  obtain ⟨i, r, m', p', ht, rfl, -⟩ := h.cases
  rw [← hz]
  exact ht.dirPending_eq (hs.inHand_eq_zero hz i)

/-- **A counter at zero stays at zero.** -/
theorem dirPending_stays_zero (h : (lts W M).Reachable (.init seeds) s)
    (hz : s.pool.dirPending = 0) (h' : (lts W M).Reachable s s') : s'.pool.dirPending = 0 :=
  h'.invariant (I := fun s => s.pool.dirPending = 0) hz fun _ _ _ hr hz hst =>
    hst.dirPending_zero (counter_exact (h.trans hr)) hz

theorem parkedCount_exact (h : (lts W M).Reachable (.init seeds) s) :
    s.pool.parkedCount = s.announced := by
  refine h.invariant (I := fun s => s.pool.parkedCount = s.announced) ?_ ?_
  · simp [State.init, Pool.seeded, State.announced, Pc.announced]
  · intro s e s' _ hs hst
    obtain ⟨i, r, m', p', ht, rfl, -⟩ := hst.cases
    have hle := Threads.le_sum_apply (fun i => (s.pc i).announced) i
    have hp := ht.parkedCount (by simp only [State.announced] at hs; omega)
    have hsum := Threads.sum_update_add Pc.announced s.pc i p'
    simp only [State.announced, State.set] at hs ⊢
    omega

theorem parkedCount_pos (h : (lts W M).Reachable (.init seeds) s) {b : Fin n}
    (hb : (s.pc b).announced = 1) : 0 < s.pool.parkedCount := by
  have hle := Threads.le_sum_apply (fun i => (s.pc i).announced) b
  have hx := parkedCount_exact h
  simp only [State.announced] at hx
  omega

/-! ### Nobody leaves early -/

/-- Somebody is leaving or has left. -/
def State.Quitting (s : State n T) : Prop := s.pool.shutdown = true ∨ ∃ i, (s.pc i).Leaving

theorem dirPending_of_quitting (h : (lts W M).Reachable (.init seeds) s) (hq : s.Quitting) :
    s.pool.dirPending = 0 := by
  refine h.invariant (I := fun s => s.Quitting → s.pool.dirPending = 0) ?_ ?_ hq
  · rintro (hs | ⟨i, hi⟩)
    · simp [State.init, Pool.seeded] at hs
    · exact hi.elim
  · intro s e s' hr ih hst hq'
    refine hst.dirPending_zero (counter_exact hr) ?_
    obtain ⟨i, r, m', p', ht, rfl, -⟩ := hst.cases
    -- a worker other than `i` was leaving before, and `i` itself only at a zero counter
    have hi : m'.shutdown = true ∨ p'.Leaving → s.pool.dirPending = 0 := by
      intro hp
      rcases ht.leaving hp with h1 | h1 | h1
      · exact ih (Or.inl h1)
      · exact ih (Or.inr ⟨i, h1⟩)
      · exact h1
    rcases hq' with hsd | ⟨j, hj⟩
    · exact hi (Or.inl hsd)
    · by_cases hji : j = i
      · subst hji
        rw [State.set_pc_self] at hj
        exact hi (Or.inr hj)
      · rw [State.set_pc_of_ne _ _ _ hji] at hj
        exact ih (Or.inr ⟨j, hj⟩)

/-- The items placed on the deques before the workers start. -/
def seeded (seeds : Fin n → List T) : Multiset T := ∑ i, (seeds i : Multiset T)

/-- The items pushed in a run. -/
def pushed (es : List (Event T)) : Multiset T := (es.map Event.pushes).sum

/-- The items taken in a run, once for each time. -/
def taken (es : List (Event T)) : Multiset T := (es.map Event.takes).sum

/-- The items whose walk has ended in a run, once for each time. -/
def finished (es : List (Event T)) : Multiset T := (es.map Event.finishes).sum

variable {es : List (Event T)}

theorem Step.queued (h : Step W M s e s') :
    s'.pool.queued + e.takes = s.pool.queued + e.pushes := by
  obtain ⟨i, r, m', p', ht, rfl, -⟩ := h.cases
  exact ht.queued

theorem Step.held (h : Step W M s e s') : s'.held + e.finishes = s.held + e.takes := by
  obtain ⟨i, r, m', p', ht, rfl, -⟩ := h.cases
  have h1 := Threads.sum_update_add Pc.inHand s.pc i p'
  refine add_right_cancel (b := (s.pc i).inHand) ?_
  calc (s.set i m' p').held + e.finishes + (s.pc i).inHand
      = s.held + (p'.inHand + e.finishes) := by
        rw [add_right_comm, State.held, State.set, h1, add_assoc, State.held]
    _ = s.held + e.takes + (s.pc i).inHand := by
        rw [ht.inHand, ← add_assoc, add_right_comm]

/-- Every item ever seeded or pushed is in a deque or has been taken. -/
theorem queued_add_taken (h : (lts W M).Run (.init seeds) es s) :
    s.pool.queued + taken es = seeded seeds + pushed es := by
  refine h.history (P := fun es s => s.pool.queued + taken es = seeded seeds + pushed es) ?_ ?_
  · simp [taken, pushed, seeded, State.init, Pool.seeded, Pool.queued, Deque.total, Deque.bag]
  · intro es s e s' _ ih hst
    have hq := hst.queued
    simp only [taken, pushed, List.map_append, List.sum_append, List.map_cons, List.map_nil,
      List.sum_singleton] at ih ⊢
    rw [← add_assoc, add_right_comm, hq, add_right_comm, ih, add_assoc]

theorem held_add_finished (h : (lts W M).Run (.init seeds) es s) :
    s.held + finished es = taken es := by
  refine h.history (P := fun es s => s.held + finished es = taken es) ?_ ?_
  · simp [taken, finished, State.init, State.held, Pc.inHand]
  · intro es s e s' _ ih hst
    have hq := hst.held
    simp only [taken, finished, List.map_append, List.sum_append, List.map_cons, List.map_nil,
      List.sum_singleton] at ih ⊢
    rw [← add_assoc, add_right_comm, hq, add_right_comm, ih]

/-- After the run `es` every item ever seeded or pushed has been taken exactly once, the walk of
every item taken has ended, and all deques are empty. -/
structure AllWalked (seeds : Fin n → List T) (es : List (Event T)) (s : State n T) : Prop where
  taken_once : taken es = seeded seeds + pushed es
  walked : finished es = taken es
  empty : ∀ i, (s.pool.deque i).items = []

theorem allWalked_of_zero (h : (lts W M).Run (.init seeds) es s) (hz : s.pool.dirPending = 0) :
    AllWalked seeds es s := by
  obtain ⟨hq, hh⟩ := (counter_exact h.reachable).of_zero hz
  have h1 := queued_add_taken h
  have h2 := held_add_finished h
  rw [hq, zero_add] at h1
  rw [hh, zero_add] at h2
  exact ⟨h1, h2, Deque.total_eq_zero.1 hq⟩

/-- **No premature exit, nothing lost, nothing walked twice**: for every walk and every memory
model, once some worker has returned or `shutdown` is set, everything has been walked, and this
stays so in every later state. -/
theorem allWalked_of_exit (h : (lts W M).Run (.init seeds) es s)
    (hq : (∃ i, s.pc i = .returned) ∨ s.pool.shutdown = true) :
    AllWalked seeds es s ∧
      ∀ es' s', (lts W M).Run s es' s' → AllWalked seeds (es ++ es') s' := by
  have hz : s.pool.dirPending = 0 := by
    refine dirPending_of_quitting h.reachable ?_
    rcases hq with ⟨i, hi⟩ | hs
    · exact Or.inr ⟨i, by rw [hi]; trivial⟩
    · exact Or.inl hs
  exact ⟨allWalked_of_zero h hz, fun es' s' h' =>
    allWalked_of_zero (h.append h') (dirPending_stays_zero h.reachable hz h'.reachable)⟩

/-- `allWalked_of_exit` under sequential consistency. -/
theorem no_premature_exit (W : Walk T) (seeds : Fin n → List T) {es : List (Event T)}
    {s : State n T} (h : (lts W .sc).Run (.init seeds) es s)
    (hq : (∃ i, s.pc i = .returned) ∨ s.pool.shutdown = true) :
    AllWalked seeds es s ∧
      ∀ es' s', (lts W .sc).Run s es' s' → AllWalked seeds (es ++ es') s' :=
  allWalked_of_exit h hq

/-- One seed with two children, the first of which is stolen while the second is walked. -/
theorem no_premature_exit_two :
    ∃ es s, LTS.exec (State.next fun t => if t = 1 then [2, 3] else [])
        (List.replicate 7 0 ++ List.replicate 4 1 ++ List.replicate 16 0)
        (.init fun i : Fin 2 => if i = 0 then [1] else []) = some (es, s) ∧
      s.pc 0 = .returned ∧ AllWalked (fun i : Fin 2 => if i = 0 then [1] else []) es s := by
  obtain ⟨es, s, hx, hr, hs⟩ := LTS.Run.of_exec_map step_of_next
    (show (LTS.exec (State.next fun t => if t = 1 then [2, 3] else [])
        (List.replicate 7 0 ++ List.replicate 4 1 ++ List.replicate 16 0)
        (.init fun i : Fin 2 => if i = 0 then [1] else [])).map (fun x => x.2.pc 0) =
      some .returned by decide)
  exact ⟨es, s, hx, hs, (no_premature_exit _ _ hr (Or.inl ⟨0, hs⟩)).1⟩

end Queue

end Pfind
