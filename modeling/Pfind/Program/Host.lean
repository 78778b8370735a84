import Pfind.Program.Outcome
import Pfind.Scheduler.Single

/-!
# What a host has a part in

The number of workers is `-j`, or depends on the host.  All that depends on it is the order of the
lines.

* `single_output` : a program with one worker prints one text.
* `hosts_agree` : **the same command line on the same tree prints the same lines and the same
  summary on any two hosts**, and the same text where it asks for one thread.
-/

namespace Pfind

open Fs Text

/-- The search that a command line asks for. -/
def Args.search (U : CaseData) (F : Cli.F64) (args : Args) (fs : FileSystem) : Scheduler.Search :=
  .ofCli U F args.toCli fs

/-- The number of workers that a command line starts on a host. -/
def Args.workers (args : Args) (macos : Bool) (numCpus : ℕ) : ℕ :=
  Scheduler.total macos numCpus (.fromCli args)

instance (args : Args) (macos : Bool) (numCpus : ℕ) : NeZero (args.workers macos numCpus) :=
  inferInstanceAs (NeZero (Scheduler.total macos numCpus (.fromCli args)))

theorem Args.workers_single {args : Args} (h : args.threads = some 0 ∨ args.threads = some 1)
    (macos : Bool) (numCpus : ℕ) : args.workers macos numCpus = 1 := by
  rcases h with h | h <;>
    simp [workers, Config.fromCli, h, Scheduler.total, Config.effectiveThreads]

namespace Program

open Scheduler (Search small)

theorem single_output {n : ℕ} [NeZero n] (hn : n = 1) (S : Search) {ls : List (Label n)}
    {s : State n} (h : (lts S).Run (.init S) ls s) (hm : s.main = .returned) :
    s.run.output = S.records S.depthFirst := by
  subst hn
  obtain ⟨hx, hf⟩ := joined_of_returned h hm
  exact (Scheduler.depthFirst_of_finished (workers_run h) (hf 0) hx).2

/-- **The same command line on the same tree does the same on any two hosts.**  Two processes that
end without a failed write, however many workers their hosts start and in whatever order these
take their steps, exit with the same code and print the same records, as many times each, and the
same summary; with `-j 1` they print the same text. -/
theorem hosts_agree (U : CaseData) (F : Cli.F64) (args : Args) (fs : FileSystem)
    {macos macos' : Bool} {numCpus numCpus' : ℕ} {ls : List (Label (args.workers macos numCpus))}
    {ls' : List (Label (args.workers macos' numCpus'))} {s : State (args.workers macos numCpus)}
    {s' : State (args.workers macos' numCpus')}
    (h : (lts (args.search U F fs)).Run (.init (args.search U F fs)) ls s)
    (h' : (lts (args.search U F fs)).Run (.init (args.search U F fs)) ls' s')
    (hend : s.exitCode.isSome = true) (hend' : s'.exitCode.isSome = true)
    (hok : ∀ l ∈ ls, ¬ l.Failed) (hok' : ∀ l ∈ ls', ¬ l.Failed) :
    s.exitCode = s'.exitCode ∧
      (∃ ms ms', ms.Perm ms' ∧
        s.stdout = (args.search U F fs).records ms ++ summary (args.search U F fs) ∧
        s'.stdout = (args.search U F fs).records ms' ++ summary (args.search U F fs)) ∧
      (args.threads = some 0 ∨ args.threads = some 1 → s.stdout = s'.stdout) := by
  obtain ⟨hm, hcode⟩ := main_of_end h hend hok
  obtain ⟨hm', hcode'⟩ := main_of_end h' hend' hok'
  obtain ⟨ms, hms, hout⟩ := stdout_of_end h hend hok
  obtain ⟨ms', hms', hout'⟩ := stdout_of_end h' hend' hok'
  refine ⟨hcode.trans hcode'.symm, ⟨ms, ms', hms.trans hms'.symm, hout, hout'⟩, fun hj => ?_⟩
  rw [State.stdout, State.stdout, printed_of_returned h hm, printed_of_returned h' hm',
    single_output (Args.workers_single hj _ _) _ h hm,
    single_output (Args.workers_single hj _ _) _ h' hm']

/-- A command line that leaves the number of workers to the host. -/
def smallArgs : Args :=
  ⟨⟨[byte 'r'], none, [], none, none, [], true, false, false, false, false, none⟩, none⟩

/-- A host with one processor, and one with two. -/
theorem hosts_agree_small :
    ∃ (s : State (smallArgs.workers false 1)) (s' : State (smallArgs.workers false 2)),
      s.stdout = "r/f\n".toList.map byte ∧ s'.stdout = "r/f\n".toList.map byte ∧
        s.exitCode = s'.exitCode := by
  obtain ⟨ls, s, hr, hend, hout, hok⟩ := run_of_outcome
    (show outcome (n := smallArgs.workers false 1) (smallArgs.search .latin1 .decimal small.fs)
      (List.replicate 26 (some 0) ++ [none, none, none]) =
        some (some 0, "r/f\n".toList.map byte, true) by decide)
  obtain ⟨ls', s', hr', hend', hout', hok'⟩ := run_of_outcome
    (show outcome (n := smallArgs.workers false 2) (smallArgs.search .latin1 .decimal small.fs)
      (small.schedule.map some ++ [none, none, none]) =
        some (some 0, "r/f\n".toList.map byte, true) by decide)
  exact ⟨s, s', hout, hout', (hosts_agree .latin1 .decimal smallArgs small.fs hr hr'
    (by rw [hend]; rfl) (by rw [hend']; rfl) hok hok').1⟩

end Program

end Pfind
