import Pfind.Program.Report
import Pfind.Scheduler.Paths
import Pfind.Tree.Pruning

/-!
# What the program is for

A search, said without workers, queues and buffers: the paths to be found (`Search.Finds`) are
those of the entries that the filter accepts, in the directories that are reached from the root
past no directory that is skipped.

* `mem_preorder_iff` : the directories of the tree are the ones reached.
* `isSome_matchOf_iff` : the matches are the entries accepted.
* `exact_paths` : **the program reports these paths, each once, and no others**.
-/

namespace Pfind

open Fs Text

namespace Scheduler

variable {S : Search} {names : List Bytes} {dir : PathBuf} {e : DirEntry}

/-! ### The search -/

/-- Descending from the root along `names`, past no directory that is skipped, leads to `dir`. -/
inductive Search.Enters (S : Search) : List Bytes → PathBuf → Prop
  | root : Enters S [] S.root
  | down {names : List Bytes} {dir : PathBuf} {e : DirEntry} :
      Enters S names dir → some e ∈ S.fs.listing dir → e.fileType = some .dir →
      shouldSkipDirBytes e.fileName S.filter = false →
      Enters S (names ++ [e.fileName]) (dir.push e.fileName)

/-- The size of a file can be read, if it is needed, and is within the bounds. -/
def Search.Fits (S : Search) (size : Option UInt64) : Prop :=
  needSize S.filter S.output = true →
    ∃ s ∈ size, (∀ a ∈ S.filter.minSize, a ≤ s) ∧ ∀ b ∈ S.filter.maxSize, s ≤ b

/-- The entry is of the kind that is searched for, and passes the filter. -/
def Search.Accepts (S : Search) (e : DirEntry) : Prop :=
  nameMatches e.fileName S.filter.extensions S.filter.namePattern = true ∧
    if S.filter.matchDirs then
      e.fileType = some .dir ∧ shouldSkipDirBytes e.fileName S.filter = false
    else e.fileType = some .file ∧ S.Fits e.metadata

/-- The path is to be found. -/
def Search.Finds (S : Search) (path : Bytes) : Prop :=
  ∃ names dir e, S.Enters names dir ∧ some e ∈ S.fs.listing dir ∧ S.Accepts e ∧
    path = joinPath S.root (names ++ [e.fileName])

/-! ### The traversal finds it -/

theorem Search.Enters.descends (h : S.Enters names dir) : S.Descends names dir := by
  induction h with
  | root => exact .root
  | down _ he hd _ ih => exact ih.down he hd

theorem mem_children_iff {c : PathBuf} : c ∈ S.tree.children dir ↔
    ∃ e, some e ∈ S.fs.listing dir ∧ e.fileType = some .dir ∧
      shouldSkipDirBytes e.fileName S.filter = false ∧ c = dir.push e.fileName := by
  show c ∈ (S.fs.listing dir).filterMap (S.childOf dir) ↔ _
  rw [List.mem_filterMap]
  constructor
  · rintro ⟨o, ho, hc⟩
    cases o with
    | none => cases hc
    | some e =>
      simp only [Search.childOf, Pfind.childOf, Option.bind_some, Option.ite_none_right_eq_some,
        Option.some.injEq] at hc
      exact ⟨e, ho, hc.1.1, hc.1.2, hc.2.symm⟩
  · rintro ⟨e, he, hd, hskip, rfl⟩
    exact ⟨some e, he, by simp [Search.childOf, Pfind.childOf, hd, hskip]⟩

theorem enters_of_mem_preorder {dir' : PathBuf} (h : S.Enters names dir)
    (hd : dir' ∈ S.tree.preorder dir) : ∃ more, S.Enters more dir' := by
  induction dir using S.tree.induction generalizing names with
  | h dir ih =>
    rw [Unfolding.preorder_eq, List.mem_cons, List.mem_flatMap] at hd
    rcases hd with rfl | ⟨c, hc, hd⟩
    · exact ⟨names, h⟩
    · obtain ⟨e, he, hft, hskip, rfl⟩ := mem_children_iff.1 hc
      exact ih _ hc (h.down he hft hskip) hd

/-- **The directories of the tree are the ones reached.** -/
theorem mem_preorder_iff : dir ∈ S.tree.preorder S.root ↔ ∃ names, S.Enters names dir := by
  constructor
  · exact fun h => enters_of_mem_preorder .root h
  · rintro ⟨names, h⟩
    induction h with
    | root => exact Unfolding.self_mem_preorder _
    | down _ he hd hskip ih =>
      exact Unfolding.children_subset_preorder ih (mem_children_iff.2 ⟨_, he, hd, hskip, rfl⟩)

theorem inBounds_iff {filter : FilterConfig} {s : UInt64} : inBounds filter s = true ↔
    (∀ a ∈ filter.minSize, a ≤ s) ∧ ∀ b ∈ filter.maxSize, s ≤ b := by
  simp [inBounds, Option.all_eq_true]

/-- **The matches are the entries accepted.** -/
theorem isSome_matchOf_iff : (S.matchOf dir (some e)).isSome = true ↔ S.Accepts e := by
  simp only [Search.matchOf, Pfind.matchOf, Option.bind_some, Search.Accepts, Search.Fits]
  split
  · rename_i hft
    rw [isSome_matchDir]
    cases S.filter.matchDirs <;> simp [hft, FilterConfig.acceptsName, and_comm]
  · rename_i hft
    rw [isSome_matchFile]
    simp only [← inBounds_iff]
    cases S.filter.matchDirs <;> cases needSize S.filter S.output <;>
      simp [hft, FilterConfig.acceptsName, Option.any_eq_true]
  · rename_i hdir hfile
    cases S.filter.matchDirs
    · simpa using fun _ hft => (hfile hft).elim
    · simpa using fun _ hft => (hdir hft).elim

theorem mem_paths_iff (hw : S.fs.WellNamed) {path : Bytes} :
    path ∈ (S.traverse S.root).map (fun m => entryPath m.dir m.name) ↔ S.Finds path := by
  simp only [Search.traverse, Search.matchesIn, List.mem_map, List.mem_flatMap,
    List.mem_filterMap]
  constructor
  · rintro ⟨m, ⟨dir, hd, o, ho, hm⟩, rfl⟩
    cases o with
    | none => cases hm
    | some e =>
      obtain ⟨rfl, hname⟩ := matchOf_some hm
      obtain ⟨names, hn⟩ := mem_preorder_iff.1 hd
      refine ⟨names, m.dir, e, hn, ho, isSome_matchOf_iff.1 (by rw [hm]; rfl), ?_⟩
      rw [hname, entryPath_eq_joinPath hw hn.descends ho]
  · rintro ⟨names, dir, e, hn, he, ha, rfl⟩
    obtain ⟨m, hm⟩ := Option.isSome_iff_exists.1 (isSome_matchOf_iff.2 ha)
    obtain ⟨hdir, hname⟩ := matchOf_some hm
    refine ⟨m, ⟨dir, mem_preorder_iff.2 ⟨names, hn⟩, some e, he, hm⟩, ?_⟩
    rw [hdir, hname, entryPath_eq_joinPath hw hn.descends he]

theorem paths_nodup (hw : S.fs.WellNamed) :
    ((S.traverse S.root).map fun m => entryPath m.dir m.name).Nodup := by
  refine List.Sublist.nodup ?_ (collect_pathOf_nodup hw)
  rw [Search.traverse, List.map_flatMap]
  refine List.Sublist.flatMap_right _ fun dir _ => ?_
  rw [Search.matchesIn, List.map_filterMap]
  refine filterMap_sublist fun o _ p hp => ?_
  obtain ⟨m, hm, rfl⟩ := Option.map_eq_some_iff.1 hp
  cases o with
  | none => cases hm
  | some e =>
    obtain ⟨hdir, hname⟩ := matchOf_some hm
    rw [hdir, hname]
    rfl

end Scheduler

namespace Program

open Scheduler

theorem map_found_reported (S : Search) (ms : List Match) :
    (reported S ms).found.map Prod.snd =
      if S.output.countOnly then [] else ms.map fun m => entryPath m.dir m.name := by
  unfold reported
  cases S.output.countOnly with
  | true => rfl
  | false =>
    rw [if_neg Bool.false_ne_true, if_neg Bool.false_ne_true, List.map_map]
    rfl

variable {n : ℕ} [NeZero n]

/-- **The program reports the paths to be found, each once, and no others**, and with `-c` their
number, if it ends without a failed write; neither the number of workers nor the order of their
steps has a part in it. -/
theorem exact_paths (S : Search) (hw : S.fs.WellNamed)
    (hline : ∀ path, S.Finds path → byte '\n' ∉ path) {ls : List (Label n)} {s : State n}
    (h : (lts S).Run (.init S) ls s) (hend : s.exitCode.isSome = true)
    (hok : ∀ l ∈ ls, ¬ l.Failed) :
    ∃ paths : List Bytes, paths.Nodup ∧ (∀ path, path ∈ paths ↔ S.Finds path) ∧
      (readReport S.output s.stdout).found.map Prod.snd =
        (if S.output.countOnly then [] else paths) ∧
      (readReport S.output s.stdout).count =
        if S.output.countOnly then some paths.length else none := by
  obtain ⟨ms, hms, hout⟩ := stdout_of_end h hend hok
  have hperm := hms.map fun m => entryPath m.dir m.name
  have hmem : ∀ path, path ∈ ms.map (fun m => entryPath m.dir m.name) ↔ S.Finds path :=
    fun path => hperm.mem_iff.trans (mem_paths_iff hw)
  have hms' : ∀ m ∈ ms, byte '\n' ∉ entryPath m.dir m.name := fun m hm =>
    hline _ ((hmem _).1 (List.mem_map_of_mem hm))
  refine ⟨_, hperm.symm.nodup (paths_nodup hw), hmem, ?_, ?_⟩
  · rw [hout, readReport_output hms', map_found_reported]
  · rw [hout, readReport_output hms', List.length_map, hms.length_eq]
    rfl

/-- In the small tree `r/f` is to be found, and is reported. -/
theorem exact_paths_small :
    ∃ s : State 2, s.stdout = "           3  r/f\ntotal: 3 bytes\n".toList.map byte ∧
      ∀ path, path ∈ (readReport smallLong.output s.stdout).found.map Prod.snd ↔
        smallLong.Finds path := by
  obtain ⟨ls, s, hr, hend, hout, hok⟩ := smallLong_run
  have hline : ∀ path, smallLong.Finds path → byte '\n' ∉ path := by
    intro path hp
    rw [← mem_paths_iff (S := smallLong) small_wellNamed, List.mem_map] at hp
    obtain ⟨m, hm, rfl⟩ := hp
    exact newline_not_mem_smallLong m hm
  obtain ⟨paths, -, hmem, hfound, -⟩ := exact_paths smallLong small_wellNamed hline hr
    (by rw [hend]; rfl) hok
  exact ⟨s, hout, fun path => by rw [hfound, ← hmem path]; rfl⟩

end Program

end Pfind
