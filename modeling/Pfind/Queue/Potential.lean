import Pfind.Queue.Transition

/-!
# Idle rounds are paid for

The loop of a worker that finds no work is bounded only because it sleeps.  Each unpark pays for
one idle round of the sleeper, from `park` back to `park`, with a permit; each publish section and
each worker that sees quiescence pays for the permits that its broadcast may issue.

* `Pc.potential` : the number of steps that a worker may still take before it sleeps or takes an
  item, plus what it may still have to pay.
* `Transition.potential_lt` : **every access decreases the sum of the potential of the worker and
  of the permits**; only the end of a walk, which starts a publish section, does not.
-/

namespace Pfind

namespace Queue

open Function

variable {n : ℕ} {T : Type*}

/-- What a permit pays for: the steps of an idle round. -/
def permitWorth (n : ℕ) : ℕ := 2 * n + 8

/-- What the unparks from worker `k` on pay. -/
def broadcastCost (n k : ℕ) : ℕ := (n - k) * (permitWorth n + 1)

/-- What a worker keeps for its shutdown broadcast. -/
def signalCost (n : ℕ) : ℕ := broadcastCost n 0 + 3

/-- What a publish section may take, apart from the pushes. -/
def publishCost (n : ℕ) : ℕ := signalCost n + broadcastCost n 0 + 2 * n + 10

/-- The potential of a worker. -/
def Pc.potential (n : ℕ) : Pc T → ℕ
  | .park => signalCost n
  | .quiesce => signalCost n + 1
  | .walk _ => signalCost n + 1
  | .found _ => signalCost n + 2
  | .recheck k => signalCost n + (n - k) + 2
  | .announce => signalCost n + n + 3
  | .steal k => signalCost n + (n - k) + n + 4
  | .pop => signalCost n + 2 * n + 5
  | .checkShutdown => signalCost n + 2 * n + 6
  | .unparked => signalCost n + 2 * n + 7
  | .leave => broadcastCost n 0 + 3
  | .signal => broadcastCost n 0 + 2
  | .broadcast k => broadcastCost n k + 1
  | .returned => 0
  | .addDirs _ cs => publishCost n + cs.length
  | .push _ _ cs => signalCost n + broadcastCost n 0 + 2 * n + 9 + cs.length
  | .maybeUnpark _ => signalCost n + broadcastCost n 0 + 2 * n + 8
  | .unparkAll _ k => signalCost n + broadcastCost n k + 2 * n + 7
  | .subDirs _ => signalCost n + 2 * n + 6

/-- The worth of the permit of one worker. -/
def permitValue (n : ℕ) (b : Bool) : ℕ := if b then permitWorth n else 0

/-- The worth of all permits. -/
def Pool.permits (m : Pool n T) : ℕ := ∑ i, permitValue n (m.permit i)

theorem potential_publish_le (t : T) (cs : List T) :
    (Pc.publish t cs).potential n ≤ publishCost n + cs.length := by
  cases cs with
  | nil => simp [Pc.publish, Pc.potential, publishCost]; omega
  | cons c cs => exact Nat.le_refl _

theorem broadcastCost_succ {k : ℕ} (hk : k < n) :
    broadcastCost n k = broadcastCost n (k + 1) + permitWorth n + 1 := by
  unfold broadcastCost
  obtain ⟨d, hd⟩ : ∃ d, n - k = d + 1 := ⟨n - k - 1, by omega⟩
  rw [hd, show n - (k + 1) = d by omega, Nat.succ_mul, Nat.add_assoc]

variable {i : Fin n} {r : Reading} {m m' : Pool n T} {p p' : Pc T} {e : Event T}

theorem Pool.permits_unpark_le (j : Fin n) : (m.unpark j).permits ≤ m.permits + permitWorth n := by
  have h : (m.unpark j).permits + permitValue n (m.permit j) = m.permits + permitValue n true :=
    Threads.sum_update_add (permitValue n) m.permit j true
  have htrue : permitValue n true = permitWorth n := rfl
  omega

theorem Pool.permits_takePermit (hi : m.permit i = true) :
    (m.takePermit i).permits + permitWorth n = m.permits := by
  have h := Threads.sum_update_add (permitValue n) m.permit i false
  rw [hi] at h
  exact h

/-- **Every access of a worker decreases the potential.** -/
theorem Transition.potential_lt (h : Transition i r m p e m' p') (hp : ∀ t, p ≠ .walk t) :
    m'.permits + p'.potential n < m.permits + p.potential n := by
  have hworth : permitWorth n = 2 * n + 8 := rfl
  have hsignal : signalCost n = broadcastCost n 0 + 3 := rfl
  have hpub : publishCost n = signalCost n + broadcastCost n 0 + 2 * n + 10 := rfl
  cases h with
  | @walk t => exact absurd rfl (hp t)
  | broadcast hk | unparkAll hk =>
    have h1 := Pool.permits_unpark_le (m := m) ⟨_, hk⟩
    have h2 := broadcastCost_succ hk
    simp only [Pc.potential]
    omega
  | park hi =>
    have h1 := Pool.permits_takePermit hi
    simp only [Pc.potential]
    omega
  | addDirs | push =>
    refine Nat.add_lt_add_left ?_ _
    simp only [Pc.potential, List.length_cons]
    omega
  | _ =>
    refine Nat.add_lt_add_left ?_ _
    simp only [Pc.potential]
    omega

end Queue

end Pfind
