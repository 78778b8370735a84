import Pfind.Queue.Basic

/-!
# What a step of a worker can do

`Transition` lists the transitions of one worker: those of `workerLoop`, one rule for each program
point and outcome, and the end of `walk`.  `transition_of_workerLoop` says that `workerLoop` has
no others, and `Step.cases` that every step of the system is a transition of one worker.
Whatever later modules prove about a step they prove by cases on a transition.
-/

namespace Pfind

namespace Queue

open Function

variable {n : ℕ} {T : Type*}

/-- The transitions of worker `i` with reading `r` and memory `m`. -/
inductive Transition (i : Fin n) (r : Reading) (m : Pool n T) :
    Pc T → Event T → Pool n T → Pc T → Prop
  | popSome {t : T} {d : Deque T} : (m.deque i).pop = some (t, d) →
      Transition i r m .pop (.took t) (m.setDeque i d) (.walk t)
  | popNone : (m.deque i).items = [] → Transition i r m .pop .tau m (.steal 1)
  | stealSome {k : ℕ} {t : T} {d : Deque T} : k < n → (m.deque (peer i k)).steal = some (t, d) →
      Transition i r m (.steal k) (.took t) (m.setDeque (peer i k) d) (.walk t)
  | stealNone {k : ℕ} : k < n → Transition i r m (.steal k) .tau m (.steal (k + 1))
  | stealDone {k : ℕ} : n ≤ k → Transition i r m (.steal k) .tau m .announce
  | announce : Transition i r m .announce .tau m.announce (.recheck 1)
  | recheckSome {k : ℕ} {t : T} {d : Deque T} :
      k < n → (m.deque (peer i k)).steal = some (t, d) →
      Transition i r m (.recheck k) (.took t) (m.setDeque (peer i k) d) (.found t)
  | recheckNone {k : ℕ} : k < n → r.missed = true ∨ (m.deque (peer i k)).items = [] →
      Transition i r m (.recheck k) .tau m (.recheck (k + 1))
  | recheckDone {k : ℕ} : n ≤ k → Transition i r m (.recheck k) .tau m .quiesce
  | found {t : T} : Transition i r m (.found t) .tau m.retract (.walk t)
  | walk {t : T} {cs : List T} : Transition i r m (.walk t) .tau m (.publish t cs)
  | quiesceZero : m.dirPending = 0 → Transition i r m .quiesce .tau m .leave
  | quiescePos : m.dirPending ≠ 0 → Transition i r m .quiesce .tau m .park
  | leave : Transition i r m .leave .tau m.retract .signal
  | signal : Transition i r m .signal .tau m.setShutdown (.broadcast 0)
  | broadcast {k : ℕ} (h : k < n) :
      Transition i r m (.broadcast k) .tau (m.unpark ⟨k, h⟩) (.broadcast (k + 1))
  | broadcastDone {k : ℕ} : n ≤ k → Transition i r m (.broadcast k) .tau m .returned
  | park : m.permit i = true → Transition i r m .park .tau (m.takePermit i) .unparked
  | unparked : Transition i r m .unparked .tau m.retract .checkShutdown
  | shutdownSeen : m.shutdown = true → Transition i r m .checkShutdown .tau m .returned
  | shutdownUnseen : m.shutdown = false → Transition i r m .checkShutdown .tau m .pop
  | addDirs {t : T} {cs : List T} :
      Transition i r m (.addDirs t cs) .tau (m.addDirs cs.length) (.push t 0 cs)
  | push {t c : T} {k : ℕ} {cs : List T} :
      Transition i r m (.push t k (c :: cs)) (.pushed c) (m.push i c) (.push t (k + 1) cs)
  | pushDone {t : T} {k : ℕ} : Transition i r m (.push t k []) .tau m (.maybeUnpark t)
  | parkedSeen {t : T} : 0 < r.parked → Transition i r m (.maybeUnpark t) .tau m (.unparkAll t 0)
  | parkedUnseen {t : T} : r.parked = 0 → Transition i r m (.maybeUnpark t) .tau m (.subDirs t)
  | unparkAll {t : T} {k : ℕ} (h : k < n) :
      Transition i r m (.unparkAll t k) .tau (m.unpark ⟨k, h⟩) (.unparkAll t (k + 1))
  | unparkAllDone {t : T} {k : ℕ} : n ≤ k → Transition i r m (.unparkAll t k) .tau m (.subDirs t)
  | subDirs {t : T} : Transition i r m (.subDirs t) (.finished t) (m.subDirs 1) .pop

variable {i : Fin n} {r : Reading} {m m' : Pool n T} {p p' : Pc T} {e : Event T}

theorem Pool.trySteal_eq_some {j : Fin n} {t : T} {d : Deque T}
    (h : m.trySteal r j = some (t, d)) : (m.deque j).steal = some (t, d) := by
  unfold trySteal at h
  split_ifs at h
  exact h

theorem Pool.trySteal_eq_none {j : Fin n} (h : m.trySteal r j = none) :
    r.missed = true ∨ (m.deque j).items = [] := by
  unfold trySteal at h
  split_ifs at h with hr
  · exact Or.inl hr
  · exact Or.inr (Deque.steal_eq_none.1 h)

/-- **The transitions are all there is.** -/
theorem transition_of_workerLoop (h : workerLoop i r m p = some (e, m', p')) :
    Transition i r m p e m' p' := by
  cases p with
  | pop =>
    simp only [workerLoop] at h
    split at h <;> cases h
    · exact .popSome ‹_›
    · exact .popNone (Deque.pop_eq_none.1 ‹_›)
  | steal k =>
    simp only [workerLoop] at h
    split_ifs at h with hk
    · split at h <;> cases h
      · exact .stealSome hk (Pool.trySteal_eq_some ‹_›)
      · exact .stealNone hk
    · cases h; exact .stealDone (not_lt.1 hk)
  | announce => cases h; exact .announce
  | recheck k =>
    simp only [workerLoop] at h
    split_ifs at h with hk
    · split at h <;> cases h
      · exact .recheckSome hk (Pool.trySteal_eq_some ‹_›)
      · exact .recheckNone hk (Pool.trySteal_eq_none ‹_›)
    · cases h; exact .recheckDone (not_lt.1 hk)
  | found t => cases h; exact .found
  | quiesce =>
    simp only [workerLoop, Option.some.injEq, Prod.mk.injEq] at h
    obtain ⟨rfl, rfl, rfl⟩ := h
    split_ifs with hz
    · exact .quiesceZero hz
    · exact .quiescePos hz
  | leave => cases h; exact .leave
  | signal => cases h; exact .signal
  | broadcast k =>
    simp only [workerLoop] at h
    split_ifs at h with hk <;> cases h
    · exact .broadcast hk
    · exact .broadcastDone (not_lt.1 hk)
  | park =>
    simp only [workerLoop] at h
    split_ifs at h with hp
    cases h; exact .park hp
  | unparked => cases h; exact .unparked
  | checkShutdown =>
    simp only [workerLoop, Option.some.injEq, Prod.mk.injEq] at h
    obtain ⟨rfl, rfl, rfl⟩ := h
    split_ifs with hs
    · exact .shutdownSeen hs
    · exact .shutdownUnseen (by simpa using hs)
  | returned => cases h
  | walk t => cases h
  | addDirs t cs => cases h; exact .addDirs
  | push t k cs =>
    cases cs with
    | nil => cases h; exact .pushDone
    | cons c cs => cases h; exact .push
  | maybeUnpark t =>
    simp only [workerLoop, Option.some.injEq, Prod.mk.injEq] at h
    obtain ⟨rfl, rfl, rfl⟩ := h
    split_ifs with hs
    · exact .parkedSeen hs
    · exact .parkedUnseen (by omega)
  | unparkAll t k =>
    simp only [workerLoop] at h
    split_ifs at h with hk <;> cases h
    · exact .unparkAll hk
    · exact .unparkAllDone (not_lt.1 hk)
  | subDirs t => cases h; exact .subDirs

theorem workerLoop_eq_none (h : workerLoop i r m p = none) :
    p = .returned ∨ (∃ t, p = .walk t) ∨ p = .park ∧ m.permit i = false := by
  cases p with
  | returned => exact Or.inl rfl
  | walk t => exact Or.inr (Or.inl ⟨t, rfl⟩)
  | park =>
    simp only [workerLoop] at h
    split_ifs at h with hp
    exact Or.inr (Or.inr ⟨rfl, by simpa using hp⟩)
  | push t k cs => cases cs <;> cases h
  | pop =>
    simp only [workerLoop] at h
    split at h <;> cases h
  | steal | recheck =>
    simp only [workerLoop] at h
    split_ifs at h
    split at h <;> cases h
  | broadcast | unparkAll =>
    simp only [workerLoop] at h
    split_ifs at h
  | announce | found | quiesce | leave | signal | unparked | checkShutdown | addDirs
  | maybeUnpark | subDirs => cases h

theorem State.transition_of_op {s s' : State n T} (h : s.op i r = some (e, s')) :
    ∃ m' p', Transition i r s.pool (s.pc i) e m' p' ∧ s' = s.set i m' p' := by
  simp only [State.op, Option.map_eq_some_iff, Prod.mk.injEq] at h
  obtain ⟨⟨e', m', p'⟩, hw, rfl, rfl⟩ := h
  exact ⟨m', p', transition_of_workerLoop hw, rfl⟩

theorem State.not_walk_of_op {s s' : State n T} (h : s.op i r = some (e, s')) (t : T) :
    s.pc i ≠ .walk t := by
  intro hpc
  simp [op, hpc, workerLoop] at h

/-- Every step of the system is a transition of one worker, whose reading the memory model
allows, and whose walk publishes children that it may publish. -/
theorem Step.cases {W : Walk T} {M : Memory n T} {s s' : State n T} (h : Step W M s e s') :
    ∃ i r m' p', Transition i r s.pool (s.pc i) e m' p' ∧ s' = s.set i m' p' ∧
      (M.allows s i r ∨ ∃ t cs, s.pc i = .walk t ∧ W.publishes t cs ∧ p' = .publish t cs) := by
  cases h with
  | @op _ i r _ hr hop =>
    obtain ⟨m', p', ht, rfl⟩ := State.transition_of_op hop
    exact ⟨i, r, m', p', ht, rfl, Or.inl hr⟩
  | @walk i t cs hpc hcs =>
    refine ⟨i, s.pool.reading, s.pool, .publish t cs, ?_, rfl, Or.inr ⟨t, cs, hpc, hcs, rfl⟩⟩
    rw [hpc]
    exact .walk

end Queue

end Pfind
