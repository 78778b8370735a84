import Pfind.Scheduler.Bounds
import Pfind.Scheduler.Written
import Pfind.Text.Bytes

/-!
# The whole program (`main.rs`, `scheduler.rs`)

The main thread spawns the workers, waits in `thread::scope` until all of them have ended, prints
the summary lines that are asked for, and returns.  A state has the workers (`Scheduler.State`),
where the main thread is, and what it has printed.

A worker whose write fails ends the process with code 0 or 1, as in `Scheduler.Basic`.  `println!`
to a standard output that cannot be written panics, and so does the `eprintln!` in `flush_out`
where the error cannot be reported either.  The release profile has `panic = "abort"` : a panic in
any thread kills the whole process by a signal, and there is no exit code then.
-/

namespace Pfind

open Fs

/-! ### The command line -/

/-- The command line with the number of threads, which no other option depends on. -/
structure Args extends Cli where
  /-- Number of worker threads. -/
  threads : Option ℕ

/-- `Config::default`. -/
def Config.default : Config := ⟨none⟩

/-- `Config::from_cli`. -/
def Config.fromCli (args : Args) : Config :=
  match args.threads with
  | some threads => { Config.default with numThreads := some threads }
  | none => Config.default

namespace Program

open Scheduler (Search)

/-! ### States -/

/-- Where the main thread is in `Scheduler::run`. -/
inductive Main where
  /-- In `thread::scope`. -/
  | scope
  /-- About to print the count, if it is asked for. -/
  | count
  /-- About to print the total size, if it is asked for. -/
  | total
  /-- It has returned, which ends the process with code 0. -/
  | returned
  /-- A panic, in this thread or in a worker, has aborted the process. -/
  | aborted
  deriving DecidableEq

/-- A state of the process. -/
structure State (n : ℕ) where
  /-- The worker threads. -/
  run : Scheduler.State n
  /-- The main thread. -/
  main : Main
  /-- The bytes that the main thread has printed. -/
  printed : Bytes

variable {n : ℕ}

/-- The workers are about to start. -/
def State.init [NeZero n] (S : Search) : State n := ⟨.init S, .scope, []⟩

/-- The bytes on stdout. -/
def State.stdout (s : State n) : Bytes := s.run.output ++ s.printed

/-- The exit code; there is none while the process runs, and none if it was aborted. -/
def State.exitCode (s : State n) : Option ℕ :=
  match s.main with
  | .returned => some 0
  | .aborted => none
  | _ => s.run.exit

/-- The process has ended, with an exit code or by an abort. -/
def State.Ended (s : State n) : Prop := s.exitCode.isSome = true ∨ s.main = .aborted

/-! ### Summary lines -/

/-- `println!("{}", matched)`. -/
def countLine (matched : ℕ) : Bytes := Text.decimal matched ++ [byte '\n']

/-- `println!("total: {} bytes", n)`. -/
def totalLine (total : ℕ) : Bytes :=
  "total: ".toList.map byte ++ Text.decimal total ++ " bytes\n".toList.map byte

/-- What is printed if `count_only` is set. -/
def countText (S : Search) (matched : ℕ) : Bytes :=
  if S.output.countOnly then countLine matched else []

/-- What is printed if `sum_size` is set. -/
def totalText (S : Search) (total : ℕ) : Bytes :=
  if S.output.sumSize then totalLine total else []

/-! ### Steps -/

/-- What the main thread prints next. -/
def State.text (S : Search) (s : State n) : Bytes :=
  match s.main with
  | .count => countText S s.run.matched
  | .total => totalText S s.run.totalSize.toNat
  | _ => []

/-- The next step of the main thread, if its write succeeds. -/
def State.next (S : Search) (s : State n) : Option (State n) :=
  match s.main with
  | .scope =>
    if s.run.exit = none ∧ ∀ i, s.run.task i = .finished then some { s with main := .count }
    else none
  | .count => some { s with main := .total, printed := s.printed ++ s.text S }
  | .total => some { s with main := .returned, printed := s.printed ++ s.text S }
  | .returned | .aborted => none

/-- Who moved. -/
inductive Label (n : ℕ) where
  /-- A worker. -/
  | worker (l : Scheduler.Label n)
  /-- The main thread. -/
  | main
  /-- The main thread, whose write failed. -/
  | failed

/-- A write failed. -/
def Label.Failed : Label n → Prop
  | .worker (.failed _) | .failed => True
  | _ => False

instance (l : Label n) : Decidable l.Failed :=
  match l with
  | .worker (.failed _) | .failed => .isTrue trivial
  | .worker (.pool _ _) | .worker (.opened _ _) | .worker (.unreadable _ _)
  | .worker (.entry _ _ _ _) | .worker (.listed _) | .worker (.flushed _) | .worker (.added _)
  | .main => .isFalse id

/-- One atomic step of one thread. -/
inductive Step (S : Search) : State n → Label n → State n → Prop
  | worker {s : State n} {l : Scheduler.Label n} {run : Scheduler.State n} :
      s.main = .scope → (Scheduler.lts S).step s.run l run →
      Step S s (.worker l) { s with run := run }
  /-- `write_all` fails, and so does the `eprintln!` before `exit(1)`, which panics. -/
  | abort {s : State n} {i : Fin n} {run : Scheduler.State n} :
      s.main = .scope → (Scheduler.lts S).step s.run (.failed i) run → run.exit = some 1 →
      Step S s (.worker (.failed i)) { s with run := run, main := .aborted }
  | main {s s' : State n} : s.next S = some s' → Step S s .main s'
  /-- `println!` fails behind the bytes `pre`, and panics. -/
  | fail {s : State n} {pre : Bytes} : s.text S ≠ [] → pre <+: s.text S →
      Step S s .failed { s with main := .aborted, printed := s.printed ++ pre }

/-- The system of all threads. -/
def lts (S : Search) : LTS (State n) (Label n) := ⟨Step S⟩

/-- The next step of a worker, or of the main thread, if its writes succeed. -/
def State.nextOf (S : Search) (s : State n) : Option (Fin n) → Option (Label n × State n)
  | some i => if s.main = .scope then
      (s.run.next S i).map fun x => (.worker x.1, { s with run := x.2 })
    else none
  | none => (s.next S).map fun s' => (.main, s')

theorem step_of_nextOf {S : Search} {s s' : State n} {who : Option (Fin n)} {l : Label n}
    (h : s.nextOf S who = some (l, s')) : (lts S).step s l s' := by
  cases who with
  | some i =>
    simp only [State.nextOf] at h
    split_ifs at h with hm
    obtain ⟨x, hx, hl⟩ := Option.map_eq_some_iff.1 h
    cases hl
    exact .worker hm (Scheduler.step_of_next hx)
  | none =>
    obtain ⟨s₁, hs, hl⟩ := Option.map_eq_some_iff.1 h
    cases hl
    exact .main hs

end Program

end Pfind
