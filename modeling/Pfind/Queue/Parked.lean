import Mathlib.Data.List.DropRight
import Pfind.Queue.Quiescence

/-!
# `parked_count` against the history of a run

The steps of the system, labelled with the worker that performed the access and the point of
`worker_loop` at which it did so (`traced`).  `currentRound` is what a worker has executed since its
last `local.pop()`, so that whether it counts as parked is said by the history alone, with no
reference to where it is now (`Announced`).

* `traced_reachable_iff` : the labels leave out no interleaving.
* `Transition.parkedCount_eq` : which accesses change the counter.
* `Transition.roundInv` : a round executes the `fetch_add` at most once, and a `fetch_sub` only
  behind it, at most once, whichever way out it takes.
* `parked_count_exact` : **`parked_count` is the number of workers that have executed the
  `fetch_add` of their current round and not the `fetch_sub`**.
-/

namespace Pfind

namespace Queue

open Finset Function

variable {n : ℕ} {T : Type*}

/-! ### Who did what -/

/-- An access to the shared memory, or the end of a walk. -/
structure Access (n : ℕ) (T : Type*) where
  /-- The worker that performed it. -/
  worker : Fin n
  /-- Where in `worker_loop` the worker was. -/
  point : Pc T
  deriving DecidableEq

/-- One atomic step of worker `i`. -/
inductive StepBy (W : Walk T) (M : Memory n T) (i : Fin n) :
    State n T → Event T → State n T → Prop
  /-- The next access of `worker_loop` or of the publish section. -/
  | op {s s' : State n T} {r : Reading} {e : Event T} :
      M.allows s i r → s.op i r = some (e, s') → StepBy W M i s e s'
  /-- The walk has found the children of the item. -/
  | walk {s : State n T} {t : T} {cs : List T} :
      s.pc i = .walk t → W.publishes t cs → StepBy W M i s .tau (s.publish i t cs)

/-- The system of workers, with accesses for labels. -/
def traced (W : Walk T) (M : Memory n T) : LTS (State n T) (Access n T) where
  step s a s' := a.point = s.pc a.worker ∧ ∃ e, StepBy W M a.worker s e s'

variable {W : Walk T} {M : Memory n T} {s₀ s s' : State n T} {e : Event T}

theorem step_iff_stepBy : Step W M s e s' ↔ ∃ i, StepBy W M i s e s' := by
  constructor
  · rintro (⟨hr, hop⟩ | ⟨hpc, hcs⟩)
    · exact ⟨_, .op hr hop⟩
    · exact ⟨_, .walk hpc hcs⟩
  · rintro ⟨i, ⟨hr, hop⟩ | ⟨hpc, hcs⟩⟩
    · exact .op hr hop
    · exact .walk hpc hcs

theorem StepBy.cases {i : Fin n} (h : StepBy W M i s e s') :
    ∃ r m' p', Transition i r s.pool (s.pc i) e m' p' ∧ s' = s.set i m' p' := by
  cases h with
  | @op _ r _ hr hop =>
    obtain ⟨m', p', ht, hs'⟩ := State.transition_of_op hop
    exact ⟨r, m', p', ht, hs'⟩
  | @walk t cs hpc hcs =>
    refine ⟨s.pool.reading, s.pool, .publish t cs, ?_, rfl⟩
    rw [hpc]
    exact .walk

/-- **The labels leave out no interleaving**, and add none. -/
theorem traced_reachable_iff : (traced W M).Reachable s₀ s ↔ (lts W M).Reachable s₀ s := by
  constructor <;> intro h
  · refine h.invariant (I := fun s => (lts W M).Reachable s₀ s) (.refl s₀) ?_
    rintro s a s' - ih ⟨-, e, hst⟩
    exact ih.tail (step_iff_stepBy.2 ⟨a.worker, hst⟩)
  · refine h.invariant (I := fun s => (traced W M).Reachable s₀ s) (.refl s₀) ?_
    rintro s e s' - ih hst
    obtain ⟨i, hi⟩ := step_iff_stepBy.1 hst
    exact ih.tail (l := ⟨i, s.pc i⟩) ⟨rfl, e, hi⟩

/-- The next step of worker `i`, with the access that it is. -/
def State.nextAccess (f : T → List T) (s : State n T) (i : Fin n) :
    Option (Access n T × State n T) :=
  (s.next f i).map fun x => (⟨i, s.pc i⟩, x.2)

theorem traced_of_nextAccess {f : T → List T} {i : Fin n} {a : Access n T}
    (h : s.nextAccess f i = some (a, s')) : (traced (.ofFun f) .sc).step s a s' := by
  simp only [State.nextAccess, Option.map_eq_some_iff, Prod.mk.injEq] at h
  obtain ⟨⟨e, s''⟩, hn, rfl, rfl⟩ := h
  refine ⟨rfl, e, ?_⟩
  unfold State.next at hn
  split at hn
  · cases hn; exact .walk ‹_› rfl
  · exact .op rfl hn

/-! ### The current round -/

/-- `local.pop()`, with which a round of `worker_loop` begins. -/
def Pc.startsRound : Pc T → Bool
  | .pop => true
  | _ => false

/-- `parked_count.fetch_add(1)`. -/
def Pc.fetchesAdd : Pc T → Bool
  | .announce => true
  | _ => false

/-- `parked_count.fetch_sub(1)`, on any of the three ways out. -/
def Pc.fetchesSub : Pc T → Bool
  | .found _ | .leave | .unparked => true
  | _ => false

/-- The points at which worker `i` has performed its accesses. -/
def accesses (as : List (Access n T)) (i : Fin n) : List (Pc T) :=
  (as.filter fun a => a.worker = i).map Access.point

/-- What worker `i` has executed in its current round, behind the `local.pop()`. -/
def currentRound (as : List (Access n T)) (i : Fin n) : List (Pc T) :=
  (accesses as i).rtakeWhile fun p => !p.startsRound

/-- Worker `i` has executed the `fetch_add` of its current round and not yet the `fetch_sub`. -/
def Announced (as : List (Access n T)) (i : Fin n) : Prop :=
  (currentRound as i).any Pc.fetchesAdd = true ∧ (currentRound as i).any Pc.fetchesSub = false

instance (as : List (Access n T)) (i : Fin n) : Decidable (Announced as i) :=
  inferInstanceAs (Decidable (_ ∧ _))

/-- A round that goes on with the access at `p`. -/
def advance (round : List (Pc T)) (p : Pc T) : List (Pc T) :=
  if p.startsRound then [] else round ++ [p]

theorem currentRound_self {as : List (Access n T)} {a : Access n T} :
    currentRound (as ++ [a]) a.worker = advance (currentRound as a.worker) a.point := by
  simp only [currentRound, accesses, advance, List.filter_append, List.map_append,
    List.filter_singleton, decide_true, cond_true, List.map_cons, List.map_nil,
    List.rtakeWhile_concat]
  cases a.point.startsRound <;> simp

theorem currentRound_of_ne {as : List (Access n T)} {a : Access n T} {i : Fin n}
    (h : i ≠ a.worker) : currentRound (as ++ [a]) i = currentRound as i := by
  simp [currentRound, accesses, h.symm]

/-- The worker is between `local.pop()` and the `fetch_add` of its round. -/
def Pc.Searching : Pc T → Prop
  | .steal _ | .announce => True
  | _ => False

theorem countP_advance {q : Pc T → Bool} {round : List (Pc T)} {p : Pc T}
    (hp : p.startsRound = false) :
    (advance round p).countP q = round.countP q + if q p then 1 else 0 := by
  rw [advance, hp, if_neg Bool.false_ne_true, List.countP_append, List.countP_singleton]

section Transition

variable {i : Fin n} {r : Reading} {m m' : Pool n T} {p p' : Pc T} {round : List (Pc T)}

theorem Transition.parkedCount_eq (h : Transition i r m p e m' p') :
    m'.parkedCount =
      if p.fetchesAdd then m.parkedCount + 1
      else if p.fetchesSub then Pool.fetchSub m.parkedCount 1
      else m.parkedCount := by
  cases h with
  | found | leave | unparked => simp [Pool.retract, Pc.fetchesAdd, Pc.fetchesSub]
  | _ => rfl

theorem Transition.announced_of_pop (h : Transition i r m p e m' p') (hp : p.startsRound = true) :
    p'.announced = 0 := by
  cases h with
  | popSome | popNone => rfl
  | _ => cases hp

theorem Transition.announced (h : Transition i r m p e m' p') (hp : p.startsRound = false) :
    p.announced + (if p.fetchesAdd then 1 else 0) =
      p'.announced + if p.fetchesSub then 1 else 0 := by
  cases h with
  | popSome | popNone => cases hp
  | walk => rw [announced_publish]; rfl
  | _ => rfl

theorem Transition.searching (h : Transition i r m p e m' p') (hp : p.startsRound = false)
    (hp' : p'.Searching) : p.Searching ∧ p.fetchesAdd = false := by
  cases h with
  | stealNone | stealDone => exact ⟨trivial, rfl⟩
  | popNone => cases hp
  | @walk t cs => cases cs <;> exact hp'.elim
  | _ => exact hp'.elim

theorem searching_of_fetchesAdd (hp : p.fetchesAdd = true) : p.Searching := by
  cases p with
  | announce => trivial
  | _ => cases hp

/-- What a round has executed when it has come to `p` : no `fetch_add` before the announcement,
and behind it one, with a `fetch_sub` unless the worker still counts. -/
structure RoundInv (p : Pc T) (round : List (Pc T)) : Prop where
  add_eq : round.countP Pc.fetchesAdd = round.countP Pc.fetchesSub + p.announced
  add_le : round.countP Pc.fetchesAdd ≤ 1
  add_zero : p.Searching → round.countP Pc.fetchesAdd = 0

/-- **A step keeps the balance of the round.** -/
theorem Transition.roundInv (h : Transition i r m p e m' p') (hinv : RoundInv p round) :
    RoundInv p' (advance round p) := by
  have h1 := hinv.add_eq
  have h2 := hinv.add_le
  cases hp : p.startsRound with
  | true =>
    -- a new round, in which nothing has been executed
    rw [advance, if_pos hp]
    exact ⟨by rw [h.announced_of_pop hp]; rfl, Nat.zero_le _, fun _ => rfl⟩
  | false =>
    have ha := h.announced hp
    refine ⟨?_, ?_, fun hp' => ?_⟩
    · rw [countP_advance hp, countP_advance hp]
      omega
    · rw [countP_advance hp]
      split_ifs with hadd
      · rw [hinv.add_zero (searching_of_fetchesAdd hadd)]
      · exact h2
    · obtain ⟨hs, hadd⟩ := h.searching hp hp'
      rw [countP_advance hp, hinv.add_zero hs, hadd, if_neg Bool.false_ne_true]

end Transition

/-! ### The count -/

variable {seeds : Fin n → List T} {as : List (Access n T)}

theorem roundInv (h : (traced W M).Run (.init seeds) as s) (i : Fin n) :
    RoundInv (s.pc i) (currentRound as i) := by
  refine h.history (P := fun as s => RoundInv (s.pc i) (currentRound as i)) ?_ ?_
  · exact ⟨rfl, Nat.zero_le _, fun _ => rfl⟩
  · rintro as s a s' - ih ⟨hpt, e, hst⟩
    obtain ⟨r, m', p', ht, rfl⟩ := hst.cases
    by_cases hi : i = a.worker
    · subst hi
      rw [currentRound_self, State.set_pc_self, hpt]
      exact ht.roundInv ih
    · rw [currentRound_of_ne hi, State.set_pc_of_ne _ _ _ hi]
      exact ih

theorem RoundInv.announced_eq {p : Pc T} {i : Fin n} (h : RoundInv p (currentRound as i)) :
    p.announced = if Announced as i then 1 else 0 := by
  have h1 := h.add_eq
  have h2 := h.add_le
  have hiff : Announced as i ↔ 0 < (currentRound as i).countP Pc.fetchesAdd ∧
      (currentRound as i).countP Pc.fetchesSub = 0 := by
    rw [Announced, List.countP_pos_iff, List.any_eq_true, List.countP_eq_zero, List.any_eq_false]
  split_ifs with ha <;> rw [hiff] at ha <;> omega

theorem announced_of_fetchesSub {p : Pc T} (hp : p.fetchesSub = true) : p.announced = 1 := by
  cases p with
  | found | leave | unparked => rfl
  | _ => cases hp

/-- **`parked_count` is exact.**  After every run, whatever the walks publish and whatever the
memory model lets the workers read, it is the number of workers that have executed the `fetch_add`
of their current round and not the matching `fetch_sub`.  So it is at most `n`, a worker that is
about to decrement it, or that is in `park`, finds it positive, and it is zero once all workers
have returned. -/
theorem parked_count_exact (h : (traced W M).Run (.init seeds) as s) :
    s.pool.parkedCount = (univ.filter fun i => Announced as i).card ∧
    s.pool.parkedCount ≤ n ∧
    (∀ i, (s.pc i).fetchesSub = true → 0 < s.pool.parkedCount) ∧
    (∀ i, s.pc i = .park → 0 < s.pool.parkedCount) ∧
    ((∀ i, s.pc i = .returned) → s.pool.parkedCount = 0) := by
  have hr : (lts W M).Reachable (.init seeds) s := traced_reachable_iff.1 h.reachable
  have hcard : s.pool.parkedCount = (univ.filter fun i => Announced as i).card := by
    rw [parkedCount_exact hr, State.announced, card_filter]
    exact sum_congr rfl fun i _ => (roundInv h i).announced_eq
  refine ⟨hcard, ?_, fun i hi => ?_, fun i hi => ?_, fun hret => ?_⟩
  · rw [hcard]
    exact (card_le_univ _).trans_eq (Fintype.card_fin n)
  · exact parkedCount_pos hr (announced_of_fetchesSub hi)
  · exact parkedCount_pos hr (by rw [hi]; rfl)
  · rw [parkedCount_exact hr, State.announced]
    exact sum_eq_zero fun i _ => by rw [hret i]; rfl

/-- One worker walks the only seed, the other has parked. -/
theorem parked_count_exact_two :
    ∃ as s, LTS.exec (State.nextAccess fun _ : ℕ => []) (0 :: List.replicate 7 1)
        (.init fun i : Fin 2 => if i = 0 then [1] else []) = some (as, s) ∧
      s.pc 1 = .park ∧ s.pool.parkedCount = (univ.filter fun i => Announced as i).card ∧
      0 < s.pool.parkedCount := by
  obtain ⟨as, s, hx, hr, hs⟩ := LTS.Run.of_exec_map traced_of_nextAccess
    (show (LTS.exec (State.nextAccess fun _ : ℕ => []) (0 :: List.replicate 7 1)
        (.init fun i : Fin 2 => if i = 0 then [1] else [])).map (fun x => x.2.pc 1) =
      some .park by decide)
  obtain ⟨hcard, -, -, hpark, -⟩ := parked_count_exact hr
  exact ⟨as, s, hx, hs, hcard, hpark 1 hs⟩

end Queue

end Pfind
