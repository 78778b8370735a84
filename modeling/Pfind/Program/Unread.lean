import Pfind.LTS.Oracle
import Pfind.Program.Outcome
import Pfind.Scheduler.Worklist
import Pfind.Tree.Pruning

/-!
# What is not read has no influence

The program asks the file system for the listing and the metadata of directories of the tree, and
of no others.  What is below a directory that is skipped, and everything outside the root, might be
anything.

* `Question`, `Search.query` : what a step asks the file system, if anything.
* `asking` : a step depends on the answer to its question alone.
* `mem_preorder_of_query` : the questions are about directories of the tree.
* `unread_irrelevant` : **on two file systems that agree on the directories of the tree the
  program has the same runs**.
-/

namespace Pfind

open Fs

section Entry

variable {fs fs' : FileSystem} {filter : FilterConfig} {output : OutputConfig} {dir : PathBuf}

theorem matchOf_congr {entry : Option DirEntry}
    (h : ∀ c ∈ childOf filter dir entry, fs'.metadata c = fs.metadata c) :
    matchOf fs' filter output dir entry = matchOf fs filter output dir entry := by
  cases entry with
  | none => rfl
  | some e =>
    simp only [matchOf, Option.bind_some]
    split
    · rename_i hd
      unfold matchDir
      split_ifs with hm hneed
      · have hskip : shouldSkipDirBytes e.fileName filter = false := by
          simp only [Bool.and_eq_true, Bool.not_eq_true'] at hm
          exact hm.1.2
        rw [h (dir.push e.fileName) (by simp [childOf, hd, hskip])]
      · rfl
      · rfl
    · rfl
    · rfl

theorem walkEntry_congr {entry : Option DirEntry} {st : WorkerState}
    (h : ∀ c ∈ childOf filter dir entry, fs'.metadata c = fs.metadata c) :
    walkEntry fs' filter output dir entry st = walkEntry fs filter output dir entry st := by
  rw [walkEntry_eq, walkEntry_eq, matchOf_congr h]

end Entry

namespace Scheduler

/-- The same search on another file system. -/
def Search.withFs (S : Search) (fs : FileSystem) : Search := ⟨fs, S.root, S.filter, S.output⟩

/-- A question to the file system. -/
inductive Question where
  /-- `read_dir` and its entries. -/
  | listing (dir : PathBuf)
  /-- `fs::metadata`. -/
  | metadata (path : PathBuf)

/-- Two file systems give the same answer. -/
def Question.Agree : Question → FileSystem → FileSystem → Prop
  | .listing dir, fs, fs' => fs'.readDir dir = fs.readDir dir
  | .metadata path, fs, fs' => fs'.metadata path = fs.metadata path

variable {n : ℕ}

/-- What a step may ask: a directory is looked up once more if it is a match. -/
def Search.query (S : Search) : Label n → Option Question
  | .opened _ dir | .unreadable _ dir => some (.listing dir)
  | .entry _ dir o _ => (S.childOf dir o).map .metadata
  | _ => none

variable {S : Search} {fs fs' : FileSystem} {s s' : State n} {i : Fin n} {l : Label n}
  {q : Question}

/-! ### Steps -/

theorem mem_query : q ∈ S.query l ↔
    (∃ dir ∈ l.read, q = .listing dir) ∨ ∃ c ∈ l.pick S.childOf, q = .metadata c := by
  cases l with
  | opened i dir | unreadable i dir => simp [Search.query, Label.read, Label.pick, eq_comm]
  | entry i dir o r => simp [Search.query, Label.read, Label.pick, eq_comm]
  | pool | listed | flushed | added | failed => simp [Search.query, Label.read, Label.pick]

/-- The next step of a worker depends on the directory that it is about to read, and on the
subdirectory that it has come to. -/
theorem next_congr
    (hread : ∀ dir, s.task i = .loop → s.sys.pc i = .walk dir → fs'.readDir dir = fs.readDir dir)
    (hmeta : ∀ dir o rest, s.task i = .listing dir (o :: rest) →
      ∀ c ∈ S.childOf dir o, fs'.metadata c = fs.metadata c) :
    s.next (S.withFs fs') i = s.next (S.withFs fs) i := by
  unfold State.next
  split_ifs
  · rfl
  · split
    · rename_i ht
      split
      · rename_i dir hpc
        simp only [Search.withFs, hread dir ht hpc]
      · rfl
      · rfl
    · rename_i dir o rest ht
      -- the listing is in the state already, and nothing but the metadata is asked for
      have hentry : ∀ w, walkEntry fs' S.filter S.output dir o w =
          walkEntry fs S.filter S.output dir o w := fun w => walkEntry_congr (hmeta dir o rest ht)
      simp only [Search.withFs, hentry]
      rfl
    all_goals rfl

theorem query_walk (ht : s.task i = .loop) {dir : PathBuf} (hpc : s.sys.pc i = .walk dir)
    (h : s.next S i = some (l, s')) : S.query l = some (.listing dir) := by
  simp only [State.next, ht, hpc] at h
  split_ifs at h
  split at h <;> cases h <;> rfl

theorem query_entry {dir : PathBuf} {o : Option DirEntry} {rest : List (Option DirEntry)}
    (ht : s.task i = .listing dir (o :: rest)) (h : s.next S i = some (l, s')) :
    S.query l = (S.childOf dir o).map .metadata := by
  simp only [State.next, ht] at h
  split_ifs at h <;> cases h <;> rfl

theorem next_of_query (h : s.next S i = some (l, s')) (hq : q ∈ S.query l) :
    s.exit = none ∧ ((∃ dir, s.task i = .loop ∧ s.sys.pc i = .walk dir) ∨
      ∃ dir o rest, s.task i = .listing dir (o :: rest)) := by
  obtain ⟨hx, j, hm⟩ := (Step.next h).cases
  refine ⟨hx, ?_⟩
  unfold State.next at h
  rw [hx, Option.isSome_none, if_neg Bool.false_ne_true] at h
  split at h
  · rename_i ht
    split at h
    · rename_i dir hpc
      exact Or.inl ⟨dir, ht, hpc⟩
    · cases h; cases hq
    · obtain ⟨x, -, hl⟩ := Option.map_eq_some_iff.1 h
      cases hl
      cases hq
  · rename_i dir o rest ht
    exact Or.inr ⟨dir, o, rest, ht⟩
  · cases h; cases hq
  · cases h; cases hq
  · cases h; cases hq
  · cases h; cases hq
  · cases h

/-- **A step depends on the answer to its question alone.** -/
theorem asking (S : Search) :
    LTS.Asking (fun fs => lts (n := n) (S.withFs fs)) S.query Question.Agree where
  trans {q o o' o''} h h' := by
    cases q <;> exact Eq.trans h' h
  step_congr := by
    rintro fs fs' s l s' (hn | ⟨b, hx, hw, hp⟩) hq
    · refine .next ((next_congr ?_ ?_).trans hn)
      · intro dir ht hpc
        exact hq (.listing dir) (query_walk (S := S.withFs fs) ht hpc hn)
      · intro dir o rest ht c hc
        exact hq (.metadata c)
          ((query_entry (S := S.withFs fs) ht hn).trans (congrArg (Option.map _) hc))
    -- a write that fails has nothing to do with the file system
    · exact .fail b hx hw hp
  asks := by
    rintro fs s l s' q (hn | _) hq fs'
    · rename_i i
      obtain ⟨hx, ⟨dir, ht, hpc⟩ | ⟨dir, o, rest, ht⟩⟩ := next_of_query hn hq
      · have hsome : (s.next (S.withFs fs') i).isSome = true := by
          simp only [State.next, hx, ht, hpc]
          cases (S.withFs fs').fs.readDir dir <;> rfl
        obtain ⟨⟨l', s''⟩, hn'⟩ := Option.isSome_iff_exists.1 hsome
        refine ⟨l', s'', .next hn', (query_walk (S := S.withFs fs') ht hpc hn').trans ?_⟩
        exact (query_walk (S := S.withFs fs) ht hpc hn).symm.trans hq
      · have hsome : (s.next (S.withFs fs') i).isSome = true := by
          simp only [State.next, hx, ht]
          rfl
        obtain ⟨⟨l', s''⟩, hn'⟩ := Option.isSome_iff_exists.1 hsome
        refine ⟨l', s'', .next hn', (query_entry (S := S.withFs fs') ht hn').trans ?_⟩
        exact (query_entry (S := S.withFs fs) ht hn).symm.trans hq
    · cases hq

/-! ### Runs -/

variable [NeZero n] {ls : List (Label n)}

/-- **The questions are about directories of the tree.** -/
theorem mem_preorder_of_query (h : (lts S).Run (.init S) ls s) (hq : q ∈ ls.filterMap S.query) :
    ∃ dir ∈ S.tree.preorder S.root, q = .listing dir ∨ q = .metadata dir := by
  obtain ⟨l, hl, hq⟩ := List.mem_filterMap.1 hq
  rcases mem_query.1 hq with ⟨dir, hd, rfl⟩ | ⟨c, hc, rfl⟩
  · exact ⟨dir, Multiset.mem_of_le (reads_le h) (List.mem_filterMap.2 ⟨l, hl, hd⟩), Or.inl rfl⟩
  · have hpick : c ∈ ls.filterMap (Label.pick S.childOf) := List.mem_filterMap.2 ⟨l, hl, hc⟩
    obtain ⟨d, hd, hcd⟩ := List.mem_flatMap.1 ((pick_subperm S.childOf h).subset hpick)
    exact ⟨c, Unfolding.children_subset_preorder hd hcd, Or.inr rfl⟩

end Scheduler

namespace Program

open Scheduler (Search Question)

variable {n : ℕ} {S : Search} {fs : FileSystem} {s s' : State n} {l : Label n}

/-- What a step may ask: the main thread does not look at the file system. -/
def query (S : Search) : Label n → Option Question
  | .worker l => S.query l
  | _ => none

/-- **A step of the program depends on the answer to its question alone.** -/
theorem asking (S : Search) :
    LTS.Asking (fun fs => lts (n := n) (S.withFs fs)) (query S) Question.Agree where
  trans := (Scheduler.asking (n := n) S).trans
  step_congr := by
    rintro fs fs' s l s' (⟨hm, hst⟩ | ⟨hm, hst, hx⟩ | hn | ⟨hne, hp⟩) hq
    · exact .worker hm ((Scheduler.asking S).step_congr hst hq)
    · exact .abort hm ((Scheduler.asking S).step_congr hst hq) hx
    · exact .main hn
    · exact .fail hne hp
  asks := by
    rintro fs s l s' q (⟨hm, hst⟩ | _ | _ | _) hq fs'
    · obtain ⟨l', run, hst', hq'⟩ := (Scheduler.asking S).asks hst hq fs'
      exact ⟨.worker l', _, .worker hm hst', hq'⟩
    · cases hq
    · cases hq
    · cases hq

theorem filterMap_query (S : Search) (ls : List (Label n)) :
    ls.filterMap (query S) = (ls.filterMap Label.worked).filterMap S.query := by
  rw [List.filterMap_filterMap]
  refine List.filterMap_congr fun l _ => ?_
  cases l <;> rfl

/-- **What is not read has no influence.**  On two file systems that agree on the listing and the
metadata of every directory of the tree, whatever else there is on them, below the directories that
are skipped or elsewhere, the program has the same runs: the same steps lead to the same states,
with the same bytes on stdout and the same exit code. -/
theorem unread_irrelevant (S : Search) (fs : FileSystem) [NeZero n]
    (h : ∀ dir ∈ S.tree.preorder S.root,
      fs.readDir dir = S.fs.readDir dir ∧ fs.metadata dir = S.fs.metadata dir)
    (ls : List (Label n)) (s : State n) :
    (lts S).Run (.init S) ls s ↔
      (lts (S.withFs fs)).Run (.init (S.withFs fs)) ls s := by
  have htree : (S.withFs fs).tree.preorder S.root = S.tree.preorder S.root := by
    refine Unfolding.preorder_congr fun dir hd => ?_
    show (fs.listing dir).filterMap (S.childOf dir) = (S.fs.listing dir).filterMap (S.childOf dir)
    rw [FileSystem.listing, FileSystem.listing, (h dir hd).1]
  constructor <;> intro hr
  · refine (asking S).run_congr (e := fs) hr fun q hq => ?_
    rw [filterMap_query] at hq
    obtain ⟨dir, hd, rfl | rfl⟩ := Scheduler.mem_preorder_of_query (workers_run hr) hq
    · exact (h dir hd).1
    · exact (h dir hd).2
  · refine (asking S).run_congr (e := S.fs) hr fun q hq => ?_
    rw [filterMap_query] at hq
    obtain ⟨dir, hd, hq⟩ :=
      Scheduler.mem_preorder_of_query (S := S.withFs fs) (workers_run hr) hq
    have hd : dir ∈ S.tree.preorder S.root := htree ▸ hd
    rcases hq with rfl | rfl
    · exact (h dir hd).1.symm
    · exact (h dir hd).2.symm

/-- The search of the small tree that skips `r/d`. -/
def skipD : Search :=
  ⟨Scheduler.small.fs, [byte 'r'], { Scheduler.small.filter with skipDirs := ["d"] },
    Scheduler.small.output⟩

/-- The small tree with a file in `r/d`. -/
def hidden : FileSystem where
  readDir p :=
    if p = "r/d".toList.map byte then some [some ⟨[byte 'g'], some .file, some 1⟩]
    else Scheduler.small.fs.readDir p
  metadata := Scheduler.small.fs.metadata
  height := Scheduler.small.fs.height
  height_lt {dir es e} hr he hd := by
    split_ifs at hr with hp
    · cases hr
      obtain rfl := Option.some.inj (List.mem_singleton.1 he)
      cases hd
    · exact Scheduler.small.fs.height_lt hr he hd

/-- A file in `r/d` is not printed where `d` is skipped. -/
theorem unread_irrelevant_small :
    ∃ (ls : List (Label 1)) (s : State 1),
      (lts (skipD.withFs hidden)).Run (.init (skipD.withFs hidden)) ls s ∧
        s.exitCode = some 0 ∧ s.stdout = "r/f\ntotal: 3 bytes\n".toList.map byte := by
  obtain ⟨ls, s, hr, hend, hout, -⟩ := run_of_outcome (show outcome (n := 1) skipD
    (List.replicate 18 (some 0) ++ [none, none, none]) =
      some (some 0, "r/f\ntotal: 3 bytes\n".toList.map byte, true) by decide)
  have htree : skipD.tree.preorder skipD.root = [[byte 'r']] := by
    have hchildren : skipD.tree.children skipD.root = [] := by decide
    rw [Unfolding.preorder_eq, hchildren]
    rfl
  refine ⟨ls, s, (unread_irrelevant skipD hidden ?_ ls s).1 hr, hend, hout⟩
  rw [htree]
  intro dir hd
  rw [List.mem_singleton.1 hd]
  exact ⟨rfl, rfl⟩

end Program

end Pfind
