import Pfind.Fs.Disk
import Pfind.Program.Cost
import Pfind.Scheduler.Worklist
import Pfind.Tree.Pruning

/-!
# Symbolic links are not followed

`walk_one` goes by the type of the entry itself, and so enters real subdirectories only.

* `children_ofDisk` : the subdirectories that the program enters are those of the disk.
* `symlinks_not_followed` : **no directory of a disk is read twice**, wherever the symbolic links on
  it lead, and the cost of a search is bounded by the number of directories and entries.
-/

namespace Pfind

open Fs

namespace Scheduler

variable {ι : Type*} {D : Disk ι} {cwd : List ι} {S : Search} {dir : PathBuf} {i : ι}

/-- The names of the directories that a filter does not skip. -/
def keeps (filter : FilterConfig) (name : Bytes) : Bool := !shouldSkipDirBytes name filter

/-- **The subdirectories that the program enters are those of the disk.** -/
theorem children_ofDisk (hS : S.fs = .ofDisk D cwd) (h : D.inodeAt cwd dir = some i) :
    (S.tree.children dir).map (D.inodeAt cwd) =
      ((D.tree (keeps S.filter)).children i).map some := by
  have hchildren : S.tree.children dir =
      ((D.entries i).map fun e => some (D.entry e)).filterMap (S.childOf dir) := by
    show (S.fs.listing dir).filterMap (S.childOf dir) = _
    rw [hS, FileSystem.listing_ofDisk, h, Option.elim_some]
  show _ = (D.subdirs (keeps S.filter) i).map some
  rw [hchildren, Disk.subdirs, List.filterMap_map, List.map_filterMap, List.map_map,
    ← List.filterMap_eq_map, List.filterMap_filter]
  refine List.filterMap_congr ?_
  rintro ⟨name, j⟩ hj
  simp only [Function.comp_apply, Search.childOf, childOf, Option.bind_some, Disk.entry, keeps,
    Option.some.injEq, Bool.not_eq_true', decide_eq_true_eq]
  split_ifs with hdir
  · rw [Option.map_some, Disk.inodeAt_push h (Disk.node_of_mem_entries hj) hj hdir.1]
  · rfl

theorem preorder_ofDisk (hS : S.fs = .ofDisk D cwd) (h : D.inodeAt cwd dir = some i) :
    (S.tree.preorder dir).map (D.inodeAt cwd) =
      ((D.tree (keeps S.filter)).preorder i).map some :=
  Unfolding.preorder_map_congr (fun h => children_ofDisk hS h) h

end Scheduler

namespace Program

open Scheduler

variable {ι : Type*} {n : ℕ}

/-- The number of entries in a directory of a disk and below. -/
def entryCount (D : Disk ι) (keep : Bytes → Bool) (i : ι) : ℕ :=
  (((D.tree keep).preorder i).map fun j => (D.entries j).length).sum

variable {D : Disk ι} {cwd : List ι} {S : Search} {i : ι}

theorem dirCount_ofDisk (hS : S.fs = .ofDisk D cwd) (hi : D.inodeAt cwd S.root = some i) :
    S.dirCount = ((D.tree (keeps S.filter)).preorder i).length := by
  simpa [Search.dirCount] using congrArg List.length (preorder_ofDisk hS hi)

theorem entryCount_ofDisk (hS : S.fs = .ofDisk D cwd) (hi : D.inodeAt cwd S.root = some i) :
    S.entryCount = entryCount D (keeps S.filter) i := by
  have hlisting : (fun dir => (S.fs.listing dir).length) =
      (fun o : Option ι => (o.elim [] D.entries).length) ∘ D.inodeAt cwd := by
    funext dir
    rw [hS, FileSystem.listing_ofDisk, List.length_map]
    rfl
  rw [Search.entryCount, hlisting, ← List.map_map, preorder_ofDisk hS hi, List.map_map]
  rfl

/-- **Symbolic links are not followed**, wherever they lead, be it to a directory that they are in.
On a disk on which the root of the search leads to the directory `i`, the directories that are read
are the real ones from `i` downwards that are not skipped, none of them twice, and all of them when
the process has ended without a failed write; and the number of steps is bounded by the numbers of
these directories and of the entries in them. -/
theorem symlinks_not_followed (D : Disk ι) (cwd : List ι) (S : Search) (hS : S.fs = .ofDisk D cwd)
    {i : ι} (hi : D.inodeAt cwd S.root = some i) [NeZero n] {ls : List (Label n)} {s : State n}
    (h : (lts S).Run (.init S) ls s) :
    ((reads (ls.filterMap Label.worked)).map (D.inodeAt cwd)).Subperm
        (((D.tree (keeps S.filter)).preorder i).map some) ∧
      ((reads (ls.filterMap Label.worked)).map (D.inodeAt cwd)).Nodup ∧
      (s.exitCode.isSome = true → (∀ l ∈ ls, ¬ l.Failed) →
        ((reads (ls.filterMap Label.worked)).map (D.inodeAt cwd)).Perm
          (((D.tree (keeps S.filter)).preorder i).map some)) ∧
      ls.length ≤ (4 * n ^ 2 + 20 * n + 14) * ((D.tree (keeps S.filter)).preorder i).length +
        3 * entryCount D (keeps S.filter) i + n * (2 * n ^ 2 + 11 * n + 11) + 4 := by
  have htree := preorder_ofDisk hS hi
  have hsub : ((reads (ls.filterMap Label.worked)).map (D.inodeAt cwd)).Subperm
      (((D.tree (keeps S.filter)).preorder i).map some) := by
    obtain ⟨dirs, hperm, hdirs⟩ := Multiset.coe_le.1 (reads_le (workers_run h))
    rw [← htree]
    exact ⟨_, hperm.map _, hdirs.map _⟩
  refine ⟨hsub, ?_, fun hend hok => ?_, ?_⟩
  · obtain ⟨l, hperm, hl⟩ := hsub
    have hnodup := (Disk.tree_nodup (D := D) (keeps S.filter) i).map (Option.some_injective ι)
    exact hperm.nodup_iff.1 (hl.nodup hnodup)
  · rw [← htree]
    obtain ⟨hm, -⟩ := main_of_end h hend hok
    have hf := (joined_of_returned h hm).2
    exact (reads_perm (workers_run h) hf).map _
  · have hle := length_le S h
    rw [Scheduler.variant_init, dirCount_ofDisk hS hi, entryCount_ofDisk hS hi] at hle
    exact hle

/-- The root directory has a file `f` in it, and a symbolic link `d` to itself. -/
def loop : Disk (Fin 3) where
  node
    | 0 => .dir [([byte 'd'], 1), ([byte 'f'], 2)]
    | 1 => .symlink [byte '/']
    | 2 => .file
  len _ := 3
  root := 0
  maxLinks := 40
  height _ := 0
  height_lt {i es name j} hi hj hd := by
    match i with
    | 0 =>
      cases hi
      simp only [List.mem_cons, Prod.mk.injEq, List.not_mem_nil, or_false] at hj
      rcases hj with ⟨-, rfl⟩ | ⟨-, rfl⟩ <;> cases hd
    | 1 | 2 => cases hi
  isName {i es name j} hi hj := by
    match i with
    | 0 =>
      cases hi
      simp only [List.mem_cons, Prod.mk.injEq, List.not_mem_nil, or_false] at hj
      rcases hj with ⟨rfl, -⟩ | ⟨rfl, -⟩ <;> exact ⟨⟨by decide, by decide⟩, by decide, by decide⟩
    | 1 | 2 => cases hi
  distinct {i es} hi := by
    match i with
    | 0 => cases hi; decide
    | 1 | 2 => cases hi
  parent {i i' es es' name name' j} hi hi' hj hj' hd := by
    match i with
    | 0 =>
      cases hi
      simp only [List.mem_cons, Prod.mk.injEq, List.not_mem_nil, or_false] at hj
      rcases hj with ⟨-, rfl⟩ | ⟨-, rfl⟩ <;> cases hd
    | 1 | 2 => cases hi

/-- The search of `/`. -/
def loopSearch : Search :=
  ⟨.ofDisk loop [0], [byte '/'], Scheduler.small.filter, Scheduler.small.output⟩

/-- `/d/d/f` is a path to the file, but `/f` alone is printed. -/
theorem symlinks_not_followed_loop :
    loop.inodeAt [0] ("/d/d/f".toList.map byte) = some 2 ∧
      ∃ (ls : List (Label 1)) (s : State 1),
        (lts loopSearch).Run (.init loopSearch) ls s ∧ s.exitCode = some 0 ∧
          s.stdout = "/f\ntotal: 3 bytes\n".toList.map byte ∧
          ((reads (ls.filterMap Label.worked)).map (loop.inodeAt [0])).Nodup := by
  refine ⟨by decide, ?_⟩
  obtain ⟨ls, s, hr, hend, hout, -⟩ := run_of_outcome (show outcome (n := 1) loopSearch
    (List.replicate 18 (some 0) ++ [none, none, none]) =
      some (some 0, "/f\ntotal: 3 bytes\n".toList.map byte, true) by decide)
  exact ⟨ls, s, hr, hend, hout,
    (symlinks_not_followed loop [0] loopSearch rfl (i := 0) (by decide) hr).2.1⟩

end Program

end Pfind
