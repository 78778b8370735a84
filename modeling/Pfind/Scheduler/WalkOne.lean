import Pfind.Scheduler.Transition
import Pfind.Walker.WalkOne

/-!
# `walk_one` in a run

In a run of the program `walk_one` is carried out in steps, between which the other workers go on.

* `walkOne_run` : **the steps of a worker from the start of a walk to its publish section are a
  call of `walkOne`**: the scratch state, the writes to stdout and the operations that the worker
  is about to perform on the pool are those of the call.
* `ops_of_transition` : in the publish section each access performs the next of these operations.
-/

namespace Pfind

open Fs

namespace Scheduler

open Function

variable {n : ℕ}

/-! ### The publish section -/

/-- The operations of `walk_one` on the pool that a worker has still to perform. -/
def opsAt : Queue.Pc PathBuf → List PoolOp
  | .addDirs _ cs => .addDirs cs.length :: cs.map .push ++ [.maybeUnpark, .subDirs 1]
  | .push _ _ cs => cs.map .push ++ [.maybeUnpark, .subDirs 1]
  | .maybeUnpark _ => [.maybeUnpark, .subDirs 1]
  | .unparkAll _ _ | .subDirs _ => [.subDirs 1]
  | _ => []

/-- What an operation does to the memory of the pool; the unparks of `maybe_unpark` are accesses of
their own. -/
def perform (i : Fin n) (m : Queue.Pool n PathBuf) : PoolOp → Queue.Pool n PathBuf
  | .addDirs k => m.addDirs k
  | .push child => m.push i child
  | .maybeUnpark => m
  | .subDirs k => m.subDirs k

/-- **An access in the publish section performs the next operation**, or unparks a worker, or does
nothing to the pool. -/
theorem ops_of_transition {i : Fin n} {r : Queue.Reading} {m m' : Queue.Pool n PathBuf}
    {p p' : Queue.Pc PathBuf} {e : Queue.Event PathBuf} (h : Queue.Transition i r m p e m' p')
    (hp : opsAt p ≠ []) :
    (∃ op, opsAt p = op :: opsAt p' ∧ m' = perform i m op) ∨
      opsAt p = opsAt p' ∧ (m' = m ∨ ∃ j, m' = m.unpark j) := by
  cases h with
  | addDirs | push | parkedSeen | parkedUnseen | subDirs => exact Or.inl ⟨_, rfl, rfl⟩
  | unparkAll hk => exact Or.inr ⟨rfl, Or.inr ⟨_, rfl⟩⟩
  | pushDone | unparkAllDone => exact Or.inr ⟨rfl, Or.inl rfl⟩
  | _ => exact absurd rfl hp

theorem opsAt_publish (dir : PathBuf) (cs : List PathBuf) :
    opsAt (.publish dir cs) = publishOps cs := by
  cases cs <;> rfl

/-! ### The walk -/

section

variable {S : Search} {s : State n} {i : Fin n} {dir : PathBuf}

/-- Worker `i` goes on with task `t` and scratch state `w`, and has written the buffers `bufs`. -/
def State.written (s : State n) (i : Fin n) (t : Task) (w : WorkerState) (bufs : List Bytes) :
    State n :=
  { s.setWorker i t w with stdout := s.stdout ++ bufs.map fun b => (i, b) }

theorem State.written_nil (t : Task) (w : WorkerState) :
    s.written i t w [] = s.setWorker i t w := by
  simp [written, setWorker]

theorem State.written_written (t t' : Task) (w w' : WorkerState) (bufs bufs' : List Bytes) :
    (s.written i t w bufs).written i t' w' bufs' = s.written i t' w' (bufs ++ bufs') := by
  simp [written, setWorker]

theorem State.flushOut_setWorker (t t' : Task) (w : WorkerState) :
    (s.setWorker i t w).flushOut i t' =
      s.written i t' (Pfind.flushOut w).1 (Pfind.flushOut w).2 := by
  cases hw : w.out.isEmpty <;>
    simp [State.flushOut, Pfind.flushOut, written, setWorker, hw]

theorem walkStep_run {entry : Option DirEntry} {rest : List (Option DirEntry)}
    (hx : s.exit = none) (ht : s.task i = .listing dir (entry :: rest)) :
    let x := walkStep S.fs S.filter S.output dir entry (s.ws i)
    ∃ ls, (lts S).Run s ls (s.written i (.listing dir rest) x.1 x.2) := by
  intro x
  let y := walkEntry S.fs S.filter S.output dir entry (s.ws i)
  obtain ⟨l, hl⟩ : ∃ l, s.next S i = some (l, s.setWorker i
      (if y.2 then .flush dir rest else .listing dir rest) y.1) := by
    unfold State.next
    rw [hx, ht]
    exact ⟨_, rfl⟩
  have hrun := LTS.Run.single (step_of_next hl)
  cases hf : y.2 with
  | false =>
    have hxy : x = (y.1, []) := by simp [x, y, walkStep, hf]
    rw [hf] at hrun
    rw [hxy, State.written_nil]
    exact ⟨_, hrun⟩
  | true =>
    have hxy : x = Pfind.flushOut y.1 := by simp [x, y, walkStep, hf]
    rw [hf] at hrun
    rw [hxy, ← State.flushOut_setWorker (.flush dir rest)]
    refine ⟨_, hrun.snoc (step_of_next (i := i) (l := .flushed i) ?_)⟩
    unfold State.next
    rw [State.setWorker_exit, hx, State.setWorker_task, if_pos rfl, update_self]
    rfl

theorem walkLoop_run {entries : List (Option DirEntry)} {w : WorkerState} (hx : s.exit = none)
    (ht : s.task i = .listing dir entries) (hw : s.ws i = w) :
    let x := walkLoop S.fs S.filter S.output dir entries w
    ∃ ls, (lts S).Run s ls (s.written i (.listing dir []) x.1 x.2) := by
  induction entries generalizing s w with
  | nil =>
    have hs : s.written i (.listing dir []) w [] = s := by
      simp [State.written, State.setWorker, ← ht, ← hw]
    exact ⟨[], by simpa [walkLoop, hs] using LTS.Run.nil⟩
  | cons entry rest ih =>
    subst hw
    let x := walkStep S.fs S.filter S.output dir entry (s.ws i)
    obtain ⟨ls, hr⟩ := walkStep_run (S := S) hx ht
    obtain ⟨ls', hr'⟩ := ih (s := s.written i (.listing dir rest) x.1 x.2) hx (update_self ..)
      (update_self ..)
    rw [State.written_written] at hr'
    exact ⟨ls ++ ls', hr.append hr'⟩

/-- **The steps of a worker up to its publish section are a call of `walkOne`.** -/
theorem walkOne_run (hx : s.exit = none) (ht : s.task i = .loop) (hpc : s.sys.pc i = .walk dir) :
    let w := walkOne S.fs S.filter S.output dir (s.ws i)
    ∃ ls s', (lts S).Run s ls s' ∧ s'.ws = update s.ws i w.state ∧
      s'.stdout = s.stdout ++ w.written.map (fun b => (i, b)) ∧
      s'.sys.pool = s.sys.pool ∧ opsAt (s'.sys.pc i) = w.ops := by
  intro w
  cases hrd : S.fs.readDir dir with
  | none =>
    have hw : w = ⟨s.ws i, [], [.subDirs 1]⟩ := by simp [w, walkOne, hrd]
    have hl : s.next S i = some (.unreadable i dir, { s with sys := s.sys.publish i dir [] }) := by
      simp [State.next, hx, ht, hpc, hrd]
    refine ⟨_, _, LTS.Run.single (step_of_next hl), ?_⟩
    simp [hw, Queue.State.publish, opsAt_publish, publishOps]
  | some entries =>
    let x := walkLoop S.fs S.filter S.output dir entries { s.ws i with childDirs := [] }
    have hw : w = ⟨{ x.1 with childDirs := [] }, x.2, publishOps x.1.childDirs⟩ := by
      simp [w, x, walkOne, hrd]
    -- `read_dir`, the loop, and the end of the loop
    let t := s.setWorker i (.listing dir entries) { s.ws i with childDirs := [] }
    have hopen : s.next S i = some (.opened i dir, t) := by
      simp [State.next, hx, ht, hpc, hrd, t]
    obtain ⟨ls, hr⟩ := walkLoop_run (S := S) (s := t) hx (update_self ..) (update_self ..)
    let u := t.written i (.listing dir []) x.1 x.2
    have hlast : u.next S i = some (.listed i,
        { u.setWorker i .loop { x.1 with childDirs := [] } with
          sys := u.sys.publish i dir x.1.childDirs }) := by
      have hu : u.exit = none := hx
      have hut : u.task i = .listing dir [] := update_self ..
      have huw : u.ws i = x.1 := update_self ..
      unfold State.next
      rw [hu, hut, huw]
      rfl
    refine ⟨_, _, ((LTS.Run.single (step_of_next hopen)).append hr).snoc (step_of_next hlast), ?_⟩
    simp [hw, u, t, State.written, Queue.State.publish, opsAt_publish]

end

end Scheduler

end Pfind
