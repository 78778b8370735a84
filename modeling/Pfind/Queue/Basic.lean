import Pfind.LTS.Basic
import Pfind.Deque.Basic

/-!
# The work-stealing pool and `worker_loop` (`queue.rs`)

`Pool n T` is the memory that `n` workers share: a deque and a parking permit for each worker,
the counters `parked_count` and `dir_pending`, and the `shutdown` flag.  `Pc T` lists the points
of `worker_loop`, and of the publish section at the end of the `walk` it calls, between two
accesses to that memory; `workerLoop` performs the access that comes next.  Every atomic load,
store or read-modify-write, every push, pop or steal, every unpark and the return of every park
is one step, `Steal::Retry` being resolved inside it.  Leaving a `for` loop is a step too.

What happens inside `walk` before it publishes the children of an item is local to the worker:
`Walk` says which children an item may have, and one step of `Step` chooses them.

The memory model enters in two places only, the value that a load of `parked_count` returns and
whether a steal overlooks an item (`Reading`).  `Memory.sc` is sequential consistency.
-/

namespace Pfind

namespace Queue

open Function

variable {n : ℕ} {T : Type*}

/-! ### Shared memory -/

/-- The fields of `Pool`, together with the deques and the parkers of the workers. -/
structure Pool (n : ℕ) (T : Type*) where
  /-- The deque of each worker. -/
  deque : Fin n → Deque T
  /-- Whether the parker of each worker holds a permit. -/
  permit : Fin n → Bool
  /-- `parked_count`. -/
  parkedCount : ℕ
  /-- `dir_pending`. -/
  dirPending : ℕ
  /-- `shutdown`. -/
  shutdown : Bool

namespace Pool

/-- `fetch_sub` on an `AtomicUsize`, which wraps below zero.  `fetch_add` is addition: the
counters count items and workers, each of which occupies memory. -/
def fetchSub (x k : ℕ) : ℕ := if k ≤ x then x - k else x + 2 ^ 64 - k

variable (m : Pool n T)

/-- `add_dirs`. -/
def addDirs (k : ℕ) : Pool n T := { m with dirPending := m.dirPending + k }

/-- `sub_dirs`. -/
def subDirs (k : ℕ) : Pool n T := { m with dirPending := fetchSub m.dirPending k }

/-- `parked_count.fetch_add(1)`. -/
def announce : Pool n T := { m with parkedCount := m.parkedCount + 1 }

/-- `parked_count.fetch_sub(1)`. -/
def retract : Pool n T := { m with parkedCount := fetchSub m.parkedCount 1 }

/-- `shutdown.store(true)`. -/
def setShutdown : Pool n T := { m with shutdown := true }

/-- `unparkers[j].unpark()` : a parker holds at most one permit. -/
def unpark (j : Fin n) : Pool n T := { m with permit := update m.permit j true }

/-- The return of `parker.park()`, which uses up the permit. -/
def takePermit (i : Fin n) : Pool n T := { m with permit := update m.permit i false }

/-- Replace the deque of worker `j`. -/
def setDeque (j : Fin n) (d : Deque T) : Pool n T := { m with deque := update m.deque j d }

/-- `local.push(t)` by worker `i`. -/
def push (i : Fin n) (t : T) : Pool n T := m.setDeque i ((m.deque i).push t)

/-- The items in all deques. -/
def queued : Multiset T := Deque.total m.deque

end Pool

/-- `Pool::new`. -/
def Pool.new : Pool n T := ⟨fun _ => .empty, fun _ => false, 0, 0, false⟩

/-- A pool after `add_dirs` has been called for exactly the items of `seeds`, and these have
been pushed. -/
def Pool.seeded (seeds : Fin n → List T) : Pool n T where
  deque i := ⟨seeds i⟩
  permit _ := false
  parkedCount := 0
  dirPending := ∑ i, (seeds i).length
  shutdown := false

/-! ### Program points -/

/-- The points of `worker_loop` and of the publish section of `walk_one`.  A point carries the
local variables that are still needed: the item `t` being walked, the loop counter `k`, the
children `cs` still to be pushed. -/
inductive Pc (T : Type*) where
  /-- `local.pop()`. -/
  | pop
  /-- First sweep: `stealers[(id + k) % n].steal()`. -/
  | steal (k : ℕ)
  /-- `parked_count.fetch_add(1)` before the re-check. -/
  | announce
  /-- Second sweep: `stealers[(id + k) % n].steal()`. -/
  | recheck (k : ℕ)
  /-- The re-check found work: `parked_count.fetch_sub(1)`, then the walk. -/
  | found (t : T)
  /-- `dir_pending.load() == 0`? -/
  | quiesce
  /-- Quiescence seen: `parked_count.fetch_sub(1)`. -/
  | leave
  /-- `signal_shutdown` : `shutdown.store(true)`. -/
  | signal
  /-- `signal_shutdown` : unpark worker `k`. -/
  | broadcast (k : ℕ)
  /-- `parker.park()`. -/
  | park
  /-- Behind `park` : `parked_count.fetch_sub(1)`. -/
  | unparked
  /-- `shutdown.load()`. -/
  | checkShutdown
  /-- `worker_loop` has returned. -/
  | returned
  /-- Inside `walk`, before anything is published. -/
  | walk (t : T)
  /-- `add_dirs(n)` for the children. -/
  | addDirs (t : T) (cs : List T)
  /-- `local.push(child)` for the children, `k` of them being pushed already. -/
  | push (t : T) (k : ℕ) (cs : List T)
  /-- `maybe_unpark` : `parked_count.load() > 0`? -/
  | maybeUnpark (t : T)
  /-- `maybe_unpark` : unpark worker `k`. -/
  | unparkAll (t : T) (k : ℕ)
  /-- `sub_dirs(1)` at the end of the walk. -/
  | subDirs (t : T)
  deriving DecidableEq

/-- Where `walk` goes on when it has found the children `cs` : it publishes them, if any. -/
def Pc.publish (t : T) : List T → Pc T
  | [] => .subDirs t
  | c :: cs => .addDirs t (c :: cs)

/-- What a step did to an item. -/
inductive Event (T : Type*) where
  /-- Nothing. -/
  | tau
  /-- It was popped or stolen. -/
  | took (t : T)
  /-- It was pushed. -/
  | pushed (t : T)
  /-- Its walk executed its `sub_dirs(1)`. -/
  | finished (t : T)
  deriving DecidableEq

/-- What the memory model decides about a step. -/
structure Reading where
  /-- The value that a load of `parked_count` returns. -/
  parked : ℕ
  /-- A steal finds the deque empty although it holds an item. -/
  missed : Bool

/-- The `k`-th peer of worker `i`. -/
def peer (i : Fin n) (k : ℕ) : Fin n := ⟨(i + k) % n, Nat.mod_lt _ i.pos⟩

/-- `stealers[j].steal()`. -/
def Pool.trySteal (m : Pool n T) (r : Reading) (j : Fin n) : Option (T × Deque T) :=
  if r.missed then none else (m.deque j).steal

/-- The next access of worker `i` to the shared memory: what it did, the memory behind it, and
where the worker goes on.  There is none while the worker is blocked in `park`, while it is
inside `walk`, and after it has returned. -/
def workerLoop (i : Fin n) (r : Reading) (m : Pool n T) :
    Pc T → Option (Event T × Pool n T × Pc T)
  -- 1. local pop
  | .pop => match (m.deque i).pop with
    | some (t, d) => some (.took t, m.setDeque i d, .walk t)
    | none => some (.tau, m, .steal 1)
  -- 2. steal sweep
  | .steal k =>
    if k < n then match m.trySteal r (peer i k) with
      | some (t, d) => some (.took t, m.setDeque (peer i k) d, .walk t)
      | none => some (.tau, m, .steal (k + 1))
    else some (.tau, m, .announce)
  -- 3. announce, then re-check
  | .announce => some (.tau, m.announce, .recheck 1)
  | .recheck k =>
    if k < n then match m.trySteal r (peer i k) with
      | some (t, d) => some (.took t, m.setDeque (peer i k) d, .found t)
      | none => some (.tau, m, .recheck (k + 1))
    else some (.tau, m, .quiesce)
  | .found t => some (.tau, m.retract, .walk t)
  -- 4. quiescence
  | .quiesce => some (.tau, m, if m.dirPending = 0 then .leave else .park)
  | .leave => some (.tau, m.retract, .signal)
  | .signal => some (.tau, m.setShutdown, .broadcast 0)
  | .broadcast k =>
    if h : k < n then some (.tau, m.unpark ⟨k, h⟩, .broadcast (k + 1))
    else some (.tau, m, .returned)
  -- 5. park
  | .park => if m.permit i then some (.tau, m.takePermit i, .unparked) else none
  | .unparked => some (.tau, m.retract, .checkShutdown)
  | .checkShutdown => some (.tau, m, if m.shutdown then .returned else .pop)
  | .returned => none
  -- the publish section of `walk_one`
  | .walk _ => none
  | .addDirs t cs => some (.tau, m.addDirs cs.length, .push t 0 cs)
  | .push t k (c :: cs) => some (.pushed c, m.push i c, .push t (k + 1) cs)
  | .push t _ [] => some (.tau, m, .maybeUnpark t)
  | .maybeUnpark t => some (.tau, m, if 0 < r.parked then .unparkAll t 0 else .subDirs t)
  | .unparkAll t k =>
    if h : k < n then some (.tau, m.unpark ⟨k, h⟩, .unparkAll t (k + 1))
    else some (.tau, m, .subDirs t)
  | .subDirs t => some (.finished t, m.subDirs 1, .pop)

/-! ### The system of workers -/

/-- A state of the system: the shared memory and where each worker is. -/
structure State (n : ℕ) (T : Type*) where
  /-- The shared memory. -/
  pool : Pool n T
  /-- The program point of each worker. -/
  pc : Fin n → Pc T

/-- All workers are about to start their loop. -/
def State.init (seeds : Fin n → List T) : State n T := ⟨.seeded seeds, fun _ => .pop⟩

/-- Worker `i` goes on at `p`, with the shared memory `m`. -/
def State.set (s : State n T) (i : Fin n) (m : Pool n T) (p : Pc T) : State n T :=
  ⟨m, update s.pc i p⟩

/-- Worker `i` performs its next access. -/
def State.op (i : Fin n) (r : Reading) (s : State n T) : Option (Event T × State n T) :=
  (workerLoop i r s.pool (s.pc i)).map fun x => (x.1, s.set i x.2.1 x.2.2)

/-- The walk of `t` by worker `i` has found the children `cs`. -/
def State.publish (i : Fin n) (t : T) (cs : List T) (s : State n T) : State n T :=
  s.set i s.pool (.publish t cs)

@[simp] theorem State.set_pool (s : State n T) (i : Fin n) (m : Pool n T) (p : Pc T) :
    (s.set i m p).pool = m := rfl

@[simp] theorem State.set_pc_self (s : State n T) (i : Fin n) (m : Pool n T) (p : Pc T) :
    (s.set i m p).pc i = p := update_self ..

@[simp] theorem State.set_pc_of_ne (s : State n T) {i j : Fin n} (m : Pool n T) (p : Pc T)
    (h : j ≠ i) : (s.set i m p).pc j = s.pc j := update_of_ne h ..

/-- The children that the walk of an item may push. -/
structure Walk (T : Type*) where
  /-- The walk of `t` may push the children `cs`, in this order. -/
  publishes : T → List T → Prop
  /-- Every walk ends. -/
  total : ∀ t, ∃ cs, publishes t cs

/-- The walk that pushes the children `f t` of `t`. -/
def Walk.ofFun (f : T → List T) : Walk T := ⟨fun t cs => cs = f t, fun t => ⟨f t, rfl⟩⟩

/-- A walk that may push any children. -/
def Walk.any : Walk T := ⟨fun _ _ => True, fun _ => ⟨[], trivial⟩⟩

/-- A memory model: the readings that a step of worker `i` may have in a state. -/
structure Memory (n : ℕ) (T : Type*) where
  /-- Worker `i` may read `r` in state `s`. -/
  allows : State n T → Fin n → Reading → Prop

/-- The reading of a sequentially consistent memory. -/
def Pool.reading (m : Pool n T) : Reading := ⟨m.parkedCount, false⟩

/-- Sequential consistency. -/
def Memory.sc : Memory n T := ⟨fun s _ r => r = s.pool.reading⟩

/-- Sequential consistency, except that a load of `parked_count` may return any value. -/
def Memory.stale : Memory n T := ⟨fun _ _ r => r.missed = false⟩

/-- One atomic step of one worker. -/
inductive Step (W : Walk T) (M : Memory n T) : State n T → Event T → State n T → Prop
  /-- The next access of `worker_loop` or of the publish section. -/
  | op {s s' : State n T} {i : Fin n} {r : Reading} {e : Event T} :
      M.allows s i r → s.op i r = some (e, s') → Step W M s e s'
  /-- The walk has found the children of the item. -/
  | walk {s : State n T} {i : Fin n} {t : T} {cs : List T} :
      s.pc i = .walk t → W.publishes t cs → Step W M s .tau (s.publish i t cs)

/-- The system of workers. -/
def lts (W : Walk T) (M : Memory n T) : LTS (State n T) (Event T) := ⟨Step W M⟩

/-! ### Running a schedule

Under sequential consistency, with a walk given by a function, a schedule determines the run. -/

/-- The next step of worker `i`. -/
def State.next (f : T → List T) (s : State n T) (i : Fin n) : Option (Event T × State n T) :=
  match s.pc i with
  | .walk t => some (.tau, s.publish i t (f t))
  | _ => s.op i s.pool.reading

theorem step_of_next {f : T → List T} {s s' : State n T} {i : Fin n} {e : Event T}
    (h : s.next f i = some (e, s')) : (lts (.ofFun f) .sc).step s e s' := by
  unfold State.next at h
  split at h
  · cases h; exact .walk ‹_› rfl
  · exact .op rfl h

end Queue

end Pfind
