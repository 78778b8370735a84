import Pfind.LTS.Basic
import Pfind.LTS.Oracle
import Pfind.Deque.Basic
import Pfind.Tree.Unfolding
import Pfind.Tree.Pruning
import Pfind.Tree.Levels
import Pfind.Tree.Worklist
import Pfind.Glob.Language
import Pfind.Glob.Gaps
import Pfind.Text.Affix
import Pfind.Text.Utf8
import Pfind.Text.Unicode
import Pfind.Text.Bytes
import Pfind.Process.Basic
import Pfind.Process.GlobMatch
import Pfind.Process.GlobBound
import Pfind.Process.GlobChars
import Pfind.Queue.Basic
import Pfind.Queue.Transition
import Pfind.Queue.Quiescence
import Pfind.Queue.Parked
import Pfind.Queue.Deadlock
import Pfind.Queue.Wakeup
import Pfind.Queue.StoreBuffer
import Pfind.Queue.Potential
import Pfind.Queue.Termination
import Pfind.Queue.Space
import Pfind.Queue.Late
import Pfind.Fs.Basic
import Pfind.Fs.Path
import Pfind.Fs.Disk
import Pfind.Cli.Basic
import Pfind.Cli.Size
import Pfind.Walker.Basic
import Pfind.Cli.Extensions
import Pfind.Walker.Match
import Pfind.Walker.Filter
import Pfind.Walker.Skip
import Pfind.Walker.WalkOne
import Pfind.Scheduler.Basic
import Pfind.Scheduler.Transition
import Pfind.Scheduler.Pool
import Pfind.Scheduler.Conservation
import Pfind.Scheduler.Termination
import Pfind.Scheduler.Progress
import Pfind.Scheduler.Output
import Pfind.Scheduler.Sequential
import Pfind.Scheduler.Paths
import Pfind.Scheduler.WalkOne
import Pfind.Scheduler.Display
import Pfind.Scheduler.Bounds
import Pfind.Scheduler.Worklist
import Pfind.Scheduler.Single
import Pfind.Scheduler.Space
import Pfind.Scheduler.Written
import Pfind.Scheduler.Batching
import Pfind.Program.Basic
import Pfind.Program.Outcome
import Pfind.Program.Host
import Pfind.Program.Report
import Pfind.Program.Benchmark
import Pfind.Program.Exact
import Pfind.Program.OsWalk
import Pfind.Program.Narrowing
import Pfind.Program.Patterns
import Pfind.Program.Faults
import Pfind.Program.Unread
import Pfind.Program.Snapshot
import Pfind.Program.Cost
import Pfind.Program.Symlinks
