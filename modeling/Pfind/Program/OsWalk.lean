import Mathlib.Data.List.ReduceOption
import Pfind.Cli.Extensions
import Pfind.Program.Benchmark
import Pfind.Program.Exact
import Pfind.Tree.Pruning

/-!
# The reference count of the benchmark harness (`benchmark.py`)

The harness puts next to the counts of the tools one that it makes itself (`benchmark_oswalk`).
`os.walk` enters every directory and takes for a file what is not one; names are compared with an
extension as they are.

* `benchmarkOswalk_eq` : the count is a total over the directories visited.
* `fileCount_eq` : what is counted in one directory are the matches there, and odd entries.
* `oswalk_agrees` : **the count of the program, the odd entries, and what is in the directories
  skipped make up the reference count**.
-/

namespace Pfind

open Fs Text

namespace Benchmark

/-! ### The reference -/

section

variable (fs : FileSystem) (linked : PathBuf → Bool) (ext : Option String) (dir : PathBuf)

/-- The entries that `os.scandir` yields of a directory; an error in between loses them all. -/
def scandir : Option (List DirEntry) :=
  (fs.readDir dir).bind fun es => if none ∈ es then none else some es.reduceOption

/-- `os.DirEntry.is_dir`, which follows a symbolic link; `linked` says which links lead to a
directory. -/
def isDir (e : DirEntry) : Bool :=
  match e.fileType with
  | some .symlink => linked (dir.push e.fileName)
  | some ft => ft.isDir
  | none => false

/-- `os.path.islink`. -/
def islink (e : DirEntry) : Bool := e.fileType = some .symlink

variable {fs linked dir} in
theorem some_mem_listing {e : DirEntry} (h : e ∈ (scandir fs dir).getD []) :
    some e ∈ fs.listing dir := by
  unfold scandir at h
  unfold FileSystem.listing
  cases hr : fs.readDir dir with
  | none => simp [hr] at h
  | some es =>
    rw [hr, Option.bind_some] at h
    split_ifs at h
    · cases h
    · exact List.reduceOption_mem_iff.1 h

variable {fs linked dir} in
theorem isDir_and_not_islink {e : DirEntry} :
    (isDir linked dir e && !islink e) = true ↔ e.fileType = some .dir := by
  unfold isDir islink
  rcases e.fileType with _ | _ | _ | _ | _ <;> simp [FileType.isDir]

/-- The directories that `os.walk` visits. -/
def walkTree : Unfolding PathBuf where
  children dir := ((scandir fs dir).getD []).filterMap fun e =>
    if isDir linked dir e && !islink e then some (dir.push e.fileName) else none
  height := fs.height
  height_lt {dir c} hc := by
    obtain ⟨e, he, hc⟩ := List.mem_filterMap.1 hc
    obtain ⟨hdir, hc⟩ := Option.ite_none_right_eq_some.1 hc
    obtain rfl := Option.some.inj hc
    exact fs.height_lt_of_mem (some_mem_listing he) (isDir_and_not_islink.1 hdir)

/-- What `os.walk` yields for a directory. -/
structure Triple where
  /-- Its path. -/
  dirpath : PathBuf
  /-- The names of the directories in it. -/
  dirnames : List Bytes
  /-- The names of the other entries. -/
  filenames : List Bytes

/-- What `os.walk` yields for one directory that it visits, if this can be read. -/
def triple : Option Triple := (scandir fs dir).map fun es =>
  ⟨dir, (es.filter (isDir linked dir)).map DirEntry.fileName,
    (es.filter fun e => !isDir linked dir e).map DirEntry.fileName⟩

/-- `os.walk`, from the top down and without following symbolic links. -/
def osWalk : List Triple := ((walkTree fs linked).preorder dir).filterMap (triple fs linked)

/-- `f.endswith(suf)`, if there is an extension. -/
def endswith (f : Bytes) : Bool := ext.all fun x => (asBytes ("." ++ x)).isSuffixOf f

/-- The count of one round. -/
def roundCount : ℕ :=
  (osWalk fs linked dir).foldl (fun count t =>
    if ext.isNone then count + t.filenames.length
    else count + t.filenames.countP (endswith ext)) 0

/-- The count of `benchmark_oswalk`, which is that of the last of the `runs` rounds. -/
def benchmarkOswalk (runs : ℕ) : ℕ :=
  (List.range runs).foldl (fun _ _ => roundCount fs linked ext dir) 0

/-- The entries of one directory that are counted. -/
def fileCount : ℕ :=
  ((scandir fs dir).getD []).countP fun e => !isDir linked dir e && endswith ext e.fileName

/-- Those of them that are no regular files: symbolic links that do not lead to a directory,
entries of other types, and those of which the type cannot be found out. -/
def oddCount : ℕ := ((scandir fs dir).getD []).countP fun e =>
  !isDir linked dir e && endswith ext e.fileName && e.fileType ≠ some .file

end

variable {fs : FileSystem} {linked : PathBuf → Bool} {ext : Option String} {dir : PathBuf}
  {e : DirEntry}

theorem roundCount_eq :
    roundCount fs linked ext dir = (walkTree fs linked).sum (fileCount fs linked ext) dir := by
  have hall : endswith none = fun _ => true := rfl
  have hround : roundCount fs linked ext dir =
      ((osWalk fs linked dir).map fun t => t.filenames.countP (endswith ext)).sum := by
    rw [List.sum_eq_foldl, List.foldl_map]
    cases ext with
    | none => simp [roundCount, hall]
    | some x => rfl
  have htriple : ∀ dirpath, ((triple fs linked dirpath).toList.map
      fun t => t.filenames.countP (endswith ext)).sum = fileCount fs linked ext dirpath := by
    intro dirpath
    unfold fileCount triple
    cases scandir fs dirpath with
    | none => rfl
    | some es =>
      simp [List.countP_map, List.countP_filter, Bool.and_comm, Function.comp_def]
  rw [hround, osWalk, Unfolding.sum]
  -- a directory that cannot be read has no triple, and nothing is counted in it
  induction (walkTree fs linked).preorder dir with
  | nil => rfl
  | cons d ds ih =>
    rw [List.map_cons, List.sum_cons, ← ih, ← htriple d]
    cases ht : triple fs linked d <;> simp [ht]

/-- **The count is a total over the directories visited.** -/
theorem benchmarkOswalk_eq {runs : ℕ} (hruns : 0 < runs) : benchmarkOswalk fs linked ext dir runs =
    (walkTree fs linked).sum (fileCount fs linked ext) dir := by
  obtain ⟨k, rfl⟩ := Nat.exists_eq_succ_of_ne_zero hruns.ne'
  rw [benchmarkOswalk, List.range_succ, List.foldl_append, List.foldl_cons, List.foldl_nil,
    roundCount_eq]

/-! ### The program in a scenario -/

/-- The command line of a scenario, with an extension and with `-c`, or without. -/
def scenario (root : PathBuf) (ext : Option String) (count : Bool) : Cli where
  root := root
  fileType := none
  ext := ext.toList
  minSize := none
  maxSize := none
  skip := []
  noSkipDefaults := false
  count := count
  sumSize := false
  long := false
  dirs := false
  name := none

/-- An extension in lowercase letters of ASCII, without a dot in front. -/
def IsPlain (x : String) : Prop :=
  (∀ c ∈ x.toList, IsAscii c ∧ c.toLower = c) ∧ x.toList.head? ≠ some '.'

/-- The names in a directory are in lowercase. -/
def LowerNames (fs : FileSystem) (dir : PathBuf) : Prop :=
  ∀ e, some e ∈ fs.listing dir → e.fileName.map toAsciiLowercase = e.fileName

theorem allExtensions_scenario {U : CaseData} {root : PathBuf} {count : Bool}
    (hext : ∀ x ∈ ext, IsPlain x) : (scenario root ext count).allExtensions U = ext.toList := by
  cases ext with
  | none => rfl
  | some x =>
    obtain ⟨hlower, hdot⟩ := hext x rfl
    have htrim : Cli.trimDots x = x := by
      have hdrop : x.toList.dropWhile (· == '.') = x.toList := by
        cases hx : x.toList with
        | nil => rfl
        | cons c cs =>
          refine List.dropWhile_cons_of_neg fun hc => hdot ?_
          rw [hx, List.head?_cons, eq_of_beq hc]
      rw [Cli.trimDots, hdrop, String.ofList_toList]
    have hcase : U.toLowercase x.toList = x.toList := by
      rw [CaseData.toLowercase_ascii fun c hc => (hlower c hc).1,
        map_eq_self fun c hc => (hlower c hc).2]
    show [String.ofList (U.toLowercase (Cli.trimDots x).toList)] = [x]
    rw [htrim, hcase, String.ofList_toList]

theorem endswith_eq {name : Bytes} (h : ext = none ∨ name.map toAsciiLowercase = name) :
    endswith ext name = ext.all fun x => nameMatchesExtension name (asBytes x) := by
  cases ext with
  | none => rfl
  | some x =>
    have hlower := h.resolve_left (Option.some_ne_none x)
    have hdot : asBytes ("." ++ x) = byte '.' :: asBytes x := by
      rw [asBytes, String.toList_append, List.flatMap_append]
      rfl
    rw [endswith, Option.all_some, Option.all_some, Bool.eq_iff_iff, List.isSuffixOf_iff_suffix,
      nameMatchesExtension_iff_suffix, hlower, hdot]

theorem map_some_reduceOption {α : Type*} {l : List (Option α)} (h : none ∉ l) :
    l.reduceOption.map some = l := by
  induction l with
  | nil => rfl
  | cons o l ih =>
    obtain ⟨ho, hl⟩ := not_or.1 (mt List.mem_cons.2 h)
    cases o with
    | none => exact absurd rfl ho
    | some a => rw [List.reduceOption_cons_of_some, List.map_cons, ih hl]

theorem listing_eq_map (h : none ∉ fs.listing dir) :
    fs.listing dir = ((scandir fs dir).getD []).map some := by
  unfold scandir
  unfold FileSystem.listing at h ⊢
  cases hr : fs.readDir dir with
  | none => rfl
  | some es =>
    rw [hr, Option.getD_some] at h
    rw [Option.bind_some, if_neg h, Option.getD_some, Option.getD_some, map_some_reduceOption h]

end Benchmark

namespace Scheduler

open Benchmark

variable {S : Search} {dir : PathBuf}

/-- The subdirectories of a directory that the program skips. -/
def Search.skippedIn (S : Search) (dir : PathBuf) : List PathBuf :=
  (S.fs.listing dir).filterMap fun entry => entry.bind fun e =>
    if e.fileType = some .dir ∧ shouldSkipDirBytes e.fileName S.filter = true then
      some (dir.push e.fileName) else none

theorem walkTree_children {linked : PathBuf → Bool} (hread : none ∉ S.fs.listing dir) :
    ((walkTree S.fs linked).children dir).Perm (S.tree.children dir ++ S.skippedIn dir) := by
  show List.Perm _ ((S.fs.listing dir).filterMap (S.childOf dir) ++ _)
  rw [Search.skippedIn, listing_eq_map hread, List.filterMap_map, List.filterMap_map]
  refine filterMap_perm_append fun e _ => ?_
  simp only [Function.comp_apply, Search.childOf, childOf, Option.bind_some, isDir_and_not_islink]
  -- a subdirectory is entered or skipped by its name, and never both
  cases shouldSkipDirBytes e.fileName S.filter
  · exact Or.inl (by simp)
  · exact Or.inr (by simp)

variable {U : CaseData} {F : Cli.F64} {fs : FileSystem} {root : PathBuf} {ext : Option String}
  {count : Bool} {linked : PathBuf → Bool} {e : DirEntry}

theorem isSome_matchOf_scenario (hext : ∀ x ∈ ext, IsPlain x) :
    ((Search.ofCli U F (scenario root ext count) fs).matchOf dir (some e)).isSome =
      (decide (e.fileType = some .file) &&
        ext.all fun x => nameMatchesExtension e.fileName (asBytes x)) := by
  have hname : nameMatches e.fileName ((scenario root ext count).allExtensions U) none =
      ext.all fun x => nameMatchesExtension e.fileName (asBytes x) := by
    rw [allExtensions_scenario hext]
    cases ext <;> simp [nameMatches, anyExtensionMatches]
  have hfits : (Search.ofCli U F (scenario root ext count) fs).Fits e.metadata :=
    fun hneed => by cases hneed
  rw [Bool.eq_iff_iff, isSome_matchOf_iff, ← hname, Bool.and_eq_true, decide_eq_true_eq]
  constructor
  · rintro ⟨hn, hkind⟩
    exact ⟨hkind.1, hn⟩
  · rintro ⟨hft, hn⟩
    exact ⟨hn, hft, hfits⟩

/-- **What `os.walk` counts in one directory are the matches there, and the odd entries.** -/
theorem fileCount_eq (hext : ∀ x ∈ ext, IsPlain x) (hread : none ∉ fs.listing dir)
    (hlower : ext = none ∨ LowerNames fs dir) : fileCount fs linked ext dir =
      ((Search.ofCli U F (scenario root ext count) fs).matchesIn dir).length +
        oddCount fs linked ext dir := by
  have hmatches : ((Search.ofCli U F (scenario root ext count) fs).matchesIn dir).length =
      ((scandir fs dir).getD []).countP fun e =>
        (!isDir linked dir e && endswith ext e.fileName) && decide (e.fileType = some .file) := by
    show ((fs.listing dir).filterMap _).length = _
    rw [List.length_filterMap_eq_countP, listing_eq_map hread, List.countP_map]
    refine List.countP_congr fun e he => ?_
    rw [Function.comp_apply, isSome_matchOf_scenario hext,
      endswith_eq (hlower.imp_right fun h => h e (some_mem_listing he))]
    -- a regular file is no directory for `os.walk` either, so that it is counted by both
    by_cases hft : e.fileType = some .file
    · simp [hft, isDir, FileType.isDir]
    · simp [hft]
  rw [fileCount, List.countP_eq_countP_filter_add _ _ fun e => decide (e.fileType = some .file),
    List.countP_filter, List.countP_filter, hmatches, oddCount]
  simp

end Scheduler

namespace Program

open Benchmark Scheduler

variable {S : Search} {fs : FileSystem} {linked : PathBuf → Bool} {ext : Option String}
  {dir : PathBuf}

theorem oddCount_eq_zero (h : ∀ e, some e ∈ fs.listing dir → e.fileType = some .file ∨
    e.fileType = some .dir ∧ shouldSkipDirBytes e.fileName S.filter = false) :
    oddCount fs linked ext dir = 0 := by
  refine List.countP_eq_zero.2 fun e he => ?_
  rcases h e (some_mem_listing he) with hft | ⟨hft, -⟩ <;> simp [hft, isDir, FileType.isDir]

theorem skippedIn_eq_nil (h : ∀ e, some e ∈ S.fs.listing dir → e.fileType = some .file ∨
    e.fileType = some .dir ∧ shouldSkipDirBytes e.fileName S.filter = false) :
    S.skippedIn dir = [] := by
  refine List.filterMap_eq_nil_iff.2 fun o ho => ?_
  cases o with
  | none => rfl
  | some e => rcases h e ho with hft | ⟨hft, hskip⟩ <;> simp [*]

/-- **The count of the program, the odd entries, and what is in the directories skipped make up the
reference count.**  In a scenario with at most one extension the harness gets from `os.walk` what
it gets from a process that has ended without a failed write, however many workers this has, plus
the entries that are neither regular files nor directories, plus what it gets from `os.walk` for
each directory skipped.  So the two agree where there are no such entries and directories.  Where
paths are printed none may have a newline in it, and where they are counted there must be fewer
than `2 ^ 64`. -/
theorem oswalk_agrees (U : CaseData) (F : Cli.F64) (fs : FileSystem) (linked : PathBuf → Bool)
    {root : PathBuf} (hroot : root ≠ []) {ext : Option String} (hext : ∀ x ∈ ext, IsPlain x)
    {count : Bool} {S : Search} (hS : S = .ofCli U F (scenario root ext count) fs)
    (hread : ∀ dir ∈ S.tree.preorder root, none ∉ fs.listing dir)
    (hlower : ext = none ∨ ∀ dir ∈ S.tree.preorder root, LowerNames fs dir)
    (hline : count = false → ∀ m ∈ S.traverse root, byte '\n' ∉ entryPath m.dir m.name)
    (hcount : count = true → (S.traverse root).length < 2 ^ 64) {runs : ℕ} (hruns : 0 < runs)
    {n : ℕ} [NeZero n] {ls : List (Label n)} {s : State n} (h : (lts S).Run (.init S) ls s)
    (hend : s.exitCode.isSome = true) (hok : ∀ l ∈ ls, ¬ l.Failed) :
    benchmarkOswalk fs linked ext root runs = countResults s.stdout +
        ((S.tree.preorder root).map fun dir => oddCount fs linked ext dir +
          ((S.skippedIn dir).map fun c => benchmarkOswalk fs linked ext c runs).sum).sum ∧
      ((∀ dir ∈ S.tree.preorder root, ∀ e, some e ∈ fs.listing dir → e.fileType = some .file ∨
          e.fileType = some .dir ∧ shouldSkipDirBytes e.fileName S.filter = false) →
        benchmarkOswalk fs linked ext root runs = countResults s.stdout) := by
  subst hS
  set S := Search.ofCli U F (scenario root ext count) fs
  -- from the output the harness gets the number of matches, with `-c` and without
  have hcounted : countResults s.stdout = (S.traverse root).length := by
    cases count with
    | true => exact countResults_counted rfl rfl (hcount rfl) h hend hok
    | false =>
      have hnone : ((S.traverse root).map fun m =>
          (entryPath m.dir m.name).count (byte '\n')).sum = 0 := by
        refine List.sum_eq_zero fun k hk => ?_
        obtain ⟨m, hm, rfl⟩ := List.mem_map.1 hk
        exact List.count_eq_zero.2 (hline rfl m hm)
      exact (countResults_listed hroot rfl rfl h hend hok).trans (Nat.add_eq_left.2 hnone)
  have hsum : benchmarkOswalk fs linked ext root runs = countResults s.stdout +
      ((S.tree.preorder root).map fun dir => oddCount fs linked ext dir +
        ((S.skippedIn dir).map fun c => benchmarkOswalk fs linked ext c runs).sum).sum := by
    have hchildren : ∀ dir ∈ S.tree.preorder root, ((walkTree fs linked).children dir).Perm
        (S.tree.children dir ++ S.skippedIn dir) :=
      fun dir hd => walkTree_children (S := S) (hread dir hd)
    rw [benchmarkOswalk_eq hruns, Unfolding.sum_pruned hchildren, hcounted, Search.traverse,
      List.length_flatMap, ← List.sum_map_add]
    refine congrArg List.sum (List.map_congr_left fun dir hd => ?_)
    rw [fileCount_eq hext (hread dir hd) (hlower.imp_right fun hl => hl dir hd), Nat.add_assoc]
    simp only [benchmarkOswalk_eq hruns]
    rfl
  refine ⟨hsum, fun hplain => ?_⟩
  rw [hsum, Nat.add_eq_left]
  refine List.sum_eq_zero fun k hk => ?_
  obtain ⟨dir, hd, rfl⟩ := List.mem_map.1 hk
  rw [oddCount_eq_zero (hplain dir hd), skippedIn_eq_nil (hplain dir hd)]
  rfl

/-- A regular file `f.x`, a symbolic link `l.x`, and a directory `env` with a file `g.x` in it. -/
def mixed : FileSystem where
  readDir p :=
    if p = [byte 'r'] then
      some [some ⟨"f.x".toList.map byte, some .file, some 1⟩,
        some ⟨"l.x".toList.map byte, some .symlink, some 1⟩,
        some ⟨"env".toList.map byte, some .dir, none⟩]
    else if p = "r/env".toList.map byte then
      some [some ⟨"g.x".toList.map byte, some .file, some 1⟩]
    else none
  metadata _ := none
  height p := if p = [byte 'r'] then 1 else 0
  height_lt {dir es e} hr he hd := by
    split_ifs at hr with h1 h2
    · subst h1
      cases hr
      simp only [List.mem_cons, Option.some.injEq, List.not_mem_nil, or_false] at he
      rcases he with rfl | rfl | rfl
      · cases hd
      · cases hd
      · decide
    · cases hr
      simp only [List.mem_cons, Option.some.injEq, List.not_mem_nil, or_false] at he
      subst he
      cases hd

/-- The search for the extension `x` there. -/
def mixedSearch : Search := .ofCli .latin1 .decimal (scenario [byte 'r'] (some "x") false) mixed

theorem mixed_preorder : mixedSearch.tree.preorder [byte 'r'] = [[byte 'r']] := by
  have hchildren : mixedSearch.tree.children [byte 'r'] = [] := by decide
  rw [Unfolding.preorder_eq, hchildren]
  rfl

theorem mixed_skipped : (mixedSearch.skippedIn [byte 'r']).map
    (fun c => benchmarkOswalk mixed (fun _ => false) (some "x") c 1) = [1] := by
  have hskipped : mixedSearch.skippedIn [byte 'r'] = ["r/env".toList.map byte] := by decide
  have hchildren : (walkTree mixed fun _ => false).children ("r/env".toList.map byte) = [] := by
    decide
  rw [hskipped, List.map_singleton, benchmarkOswalk_eq Nat.one_pos, Unfolding.sum_eq, hchildren]
  decide

/-- The program finds `f.x`, and the reference two more, `l.x` and the one in `env`. -/
theorem oswalk_agrees_mixed :
    ∃ s : State 1, s.stdout = "r/f.x\n".toList.map byte ∧
      benchmarkOswalk mixed (fun _ => false) (some "x") [byte 'r'] 1 =
        countResults s.stdout + 2 := by
  obtain ⟨ls, s, hr, hend, hout, hok⟩ := run_of_outcome
    (show outcome (n := 1) mixedSearch (List.replicate 19 (some 0) ++ [none, none, none]) =
      some (some 0, "r/f.x\n".toList.map byte, true) by decide)
  have hentries : ∀ e, some e ∈ mixed.listing [byte 'r'] →
      e.fileName.map toAsciiLowercase = e.fileName := by
    have hall : ∀ o ∈ mixed.listing [byte 'r'], ∀ e ∈ o,
        e.fileName.map toAsciiLowercase = e.fileName := by decide
    exact fun e he => hall _ he e rfl
  have hroot : ∀ {P : PathBuf → Prop}, P [byte 'r'] →
      ∀ dir ∈ mixedSearch.tree.preorder [byte 'r'], P dir := by
    intro P hP dir hd
    rw [mixed_preorder, List.mem_singleton] at hd
    rwa [hd]
  have hodd : oddCount mixed (fun _ => false) (some "x") [byte 'r'] = 1 := by decide
  have hline : ∀ m ∈ mixedSearch.traverse [byte 'r'], byte '\n' ∉ entryPath m.dir m.name := by
    rw [Search.traverse, mixed_preorder]
    decide
  have hplain : ∀ x ∈ some "x", IsPlain x := by
    rintro x ⟨⟩
    refine ⟨fun c hc => ?_, by decide⟩
    obtain rfl : c = 'x' := List.mem_singleton.1 hc
    decide
  have hagrees := (oswalk_agrees .latin1 .decimal mixed (fun _ => false)
    (List.cons_ne_nil (byte 'r') []) hplain (S := mixedSearch) rfl (hroot (by decide))
    (Or.inr (hroot hentries)) (fun _ => hline) (fun hc => absurd hc Bool.false_ne_true)
    Nat.one_pos hr (by rw [hend]; rfl) hok).1
  rw [mixed_preorder, List.map_singleton, mixed_skipped, hodd] at hagrees
  exact ⟨s, hout, hagrees⟩

end Program

end Pfind
