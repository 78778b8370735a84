import Mathlib.Algebra.BigOperators.ModEq
import Pfind.Queue.Basic
import Pfind.Walker.Basic

/-!
# `Scheduler::run` (`scheduler.rs`)

The whole program between the start of the worker threads and their end, for any number `n` of
workers: each of them runs `worker_loop` with `walk_one`, and then `flush_worker_final`.  A state
has the pool and the program points of `worker_loop` (`Queue.State`), what each worker is doing
besides (`Task`), its `WorkerState`, the writes to stdout, and the counters of the run.

`State.next` is the next step of a worker.  Reading a directory, each entry, each `flush_out` and
each `fetch_add` is one step, and the accesses to the pool are those of `Queue.workerLoop`, under
sequential consistency.  Only a write to stdout may go either way: a `write_all` is carried out
under the stdout lock and so is one step, and if it fails the process exits.
-/

namespace Pfind

open Fs

/-! ### The number of workers -/

/-- Runtime configuration. -/
structure Config where
  /-- Number of worker threads, if the user has chosen one. -/
  numThreads : Option ℕ

/-- `effective_threads` ; `macos` and `numCpus` describe the host. -/
def Config.effectiveThreads (macos : Bool) (numCpus : ℕ) (config : Config) : ℕ :=
  config.numThreads.getD (if macos then 4 else numCpus)

namespace Scheduler

/-- The number of workers, never zero. -/
def total (macos : Bool) (numCpus : ℕ) (config : Config) : ℕ :=
  max (config.effectiveThreads macos numCpus) 1

instance (macos : Bool) (numCpus : ℕ) (config : Config) : NeZero (total macos numCpus config) :=
  ⟨by unfold total; omega⟩

/-! ### States -/

/-- What the program is run on. -/
structure Search where
  /-- The directory tree. -/
  fs : FileSystem
  /-- The root of the search. -/
  root : PathBuf
  /-- The filter. -/
  filter : FilterConfig
  /-- The output options. -/
  output : OutputConfig

/-- What a worker is doing besides its accesses to the pool. -/
inductive Task where
  /-- Nothing: it is in `worker_loop`, or about to call `read_dir` or `flush_worker_final`. -/
  | loop
  /-- In the loop of `walk_one` over the entries of `dir`, before the entries `rest`. -/
  | listing (dir : PathBuf) (rest : List (Option DirEntry))
  /-- In that loop, about to call `flush_out`. -/
  | flush (dir : PathBuf) (rest : List (Option DirEntry))
  /-- `flush_worker_final`, behind `flush_out`. -/
  | addMatched
  /-- `flush_worker_final`, behind the `fetch_add` to `matched`. -/
  | addSize
  /-- The thread has ended. -/
  | finished
  deriving DecidableEq

/-- A state of the run. -/
structure State (n : ℕ) where
  /-- The pool, and where each worker is in `worker_loop`. -/
  sys : Queue.State n PathBuf
  /-- What each worker is doing besides. -/
  task : Fin n → Task
  /-- The scratch state of each worker. -/
  ws : Fin n → WorkerState
  /-- The writes to stdout, in order, and the worker that each comes from. -/
  stdout : List (Fin n × Bytes)
  /-- `matched`. -/
  matched : ℕ
  /-- `total_size`. -/
  totalSize : UInt64
  /-- The exit code, once a failing write has ended the process. -/
  exit : Option ℕ

variable {n : ℕ}

/-- The workers are about to start, and the root is in the deque of worker 0. -/
def State.init [NeZero n] (S : Search) : State n where
  sys := ⟨(Queue.Pool.new.addDirs 1).push 0 S.root, fun _ => .pop⟩
  task _ := .loop
  ws _ := .new
  stdout := []
  matched := 0
  totalSize := 0
  exit := none

/-- Worker `i` goes on with task `t` and scratch state `w`. -/
def State.setWorker (s : State n) (i : Fin n) (t : Task) (w : WorkerState) : State n :=
  { s with task := Function.update s.task i t, ws := Function.update s.ws i w }

/-- `flush_out` by worker `i`, which then goes on with task `t`. -/
def State.flushOut (s : State n) (i : Fin n) (t : Task) : State n :=
  let buf := (s.ws i).out
  if buf.isEmpty then s.setWorker i t (s.ws i)
  else { s.setWorker i t { s.ws i with out := [] } with stdout := s.stdout ++ [(i, buf)] }

/-- The `fetch_add` of `flush_worker_final` to `matched`. -/
def State.addMatched (s : State n) (i : Fin n) : State n :=
  if 0 < (s.ws i).localCount then
    { s.setWorker i .addSize { s.ws i with localCount := 0 } with
      matched := s.matched + (s.ws i).localCount }
  else s.setWorker i .addSize (s.ws i)

/-- The `fetch_add` of `flush_worker_final` to `total_size`. -/
def State.addSize (s : State n) (i : Fin n) : State n :=
  if 0 < (s.ws i).localSize then
    { s.setWorker i .finished { s.ws i with localSize := 0 } with
      totalSize := s.totalSize + (s.ws i).localSize }
  else s.setWorker i .finished (s.ws i)

/-! ### Steps -/

/-- What a step did. -/
inductive Label (n : ℕ) where
  /-- Worker `i` accessed the pool. -/
  | pool (i : Fin n) (e : Queue.Event PathBuf)
  /-- Worker `i` has read the directory `dir`. -/
  | opened (i : Fin n) (dir : PathBuf)
  /-- Worker `i` failed to read the directory `dir`. -/
  | unreadable (i : Fin n) (dir : PathBuf)
  /-- Worker `i` has processed an entry of `dir`, and appended the bytes `rec` to its buffer. -/
  | entry (i : Fin n) (dir : PathBuf) (e : Option DirEntry) (rec : Bytes)
  /-- Worker `i` is about to publish the subdirectories it has found. -/
  | listed (i : Fin n)
  /-- Worker `i` called `flush_out`. -/
  | flushed (i : Fin n)
  /-- Worker `i` added its counters to those of the run. -/
  | added (i : Fin n)
  /-- A write by worker `i` failed. -/
  | failed (i : Fin n)
  deriving DecidableEq

/-- The next step of worker `i`, if its writes succeed. -/
def State.next (S : Search) (s : State n) (i : Fin n) : Option (Label n × State n) :=
  if s.exit.isSome then none
  else match s.task i with
    | .loop => match s.sys.pc i with
      | .walk dir => match S.fs.readDir dir with
        | none => some (.unreadable i dir, { s with sys := s.sys.publish i dir [] })
        | some entries =>
          some (.opened i dir, s.setWorker i (.listing dir entries) { s.ws i with childDirs := [] })
      | .returned => some (.flushed i, s.flushOut i .addMatched)
      | _ => (s.sys.op i s.sys.pool.reading).map fun x => (.pool i x.1, { s with sys := x.2 })
    | .listing dir (e :: rest) =>
      let x := walkEntry S.fs S.filter S.output dir e (s.ws i)
      some (.entry i dir e (x.1.out.drop (s.ws i).out.length),
        s.setWorker i (if x.2 then .flush dir rest else .listing dir rest) x.1)
    | .listing dir [] =>
      some (.listed i, { s.setWorker i .loop { s.ws i with childDirs := [] } with
        sys := s.sys.publish i dir (s.ws i).childDirs })
    | .flush dir rest => some (.flushed i, s.flushOut i (.listing dir rest))
    | .addMatched => some (.added i, s.addMatched i)
    | .addSize => some (.added i, s.addSize i)
    | .finished => none

/-- Worker `i` is about to call `write_all`. -/
def State.Writing (s : State n) (i : Fin n) : Prop :=
  (s.ws i).out ≠ [] ∧ match s.task i with
    | .loop => s.sys.pc i = .returned
    | .flush _ _ => True
    | _ => False

/-- One atomic step of one worker. -/
inductive Step (S : Search) : State n → Label n → State n → Prop
  | next {s s' : State n} {i : Fin n} {l : Label n} : s.next S i = some (l, s') → Step S s l s'
  /-- `write_all` fails behind the bytes `pre`, and the process exits. -/
  | fail {s : State n} {i : Fin n} {pre : Bytes} (brokenPipe : Bool) :
      s.exit = none → s.Writing i → pre <+: (s.ws i).out →
      Step S s (.failed i) { s with
        stdout := s.stdout ++ [(i, pre)], exit := some (if brokenPipe then 0 else 1) }

/-- The system of the worker threads. -/
def lts (S : Search) : LTS (State n) (Label n) := ⟨Step S⟩

theorem step_of_next {S : Search} {s s' : State n} {i : Fin n} {l : Label n}
    (h : s.next S i = some (l, s')) : (lts S).step s l s' := .next h

/-! ### A small search -/

/-- A root `r` with a subdirectory `d` and a file `f` of three bytes; `r/d` is empty. -/
def small.fs : FileSystem where
  readDir p :=
    if p = [byte 'r'] then
      some [some ⟨[byte 'd'], some .dir, none⟩, some ⟨[byte 'f'], some .file, some 3⟩]
    else if p = [byte 'r', byte '/', byte 'd'] then some []
    else none
  metadata _ := none
  height p := if p = [byte 'r'] then 1 else 0
  height_lt {dir es e} hr he hd := by
    split_ifs at hr with h1 h2
    · subst h1
      cases hr
      simp only [List.mem_cons, Option.some.injEq, List.not_mem_nil, or_false] at he
      rcases he with rfl | rfl
      · decide
      · cases hd
    · cases hr
      cases he

/-- The search of that tree for files, with the paths and the total size printed. -/
def small : Search where
  fs := small.fs
  root := [byte 'r']
  filter := ⟨[], [], none, none, none, false⟩
  output := ⟨false, true, false⟩

/-- A schedule of two workers up to the end of both: worker 1 steals `r/d`, and sleeps until
worker 0 has seen quiescence. -/
def small.schedule : List (Fin 2) :=
  List.replicate 9 0 ++ List.replicate 12 1 ++ List.replicate 16 0 ++ List.replicate 6 1

end Scheduler

end Pfind
