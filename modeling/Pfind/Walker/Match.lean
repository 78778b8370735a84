import Pfind.Walker.Basic

/-!
# What `walk_one` makes of an entry

An entry of a directory is a match or not (`matchOf`), and it is a subdirectory to be entered or
not (`childOf`); both are facts about the entry, whatever has been walked before.

* `walkEntry_eq` : **`walkEntry` appends the record of the match, counts it, adds its size, and
  notes the subdirectory**, and calls for a flush only if a record has been appended.
* `Match.record_eq` : a record ends in a newline of its own.
-/

namespace Pfind

open Fs

/-- An entry that the filter accepts. -/
structure Match where
  /-- The directory that lists it. -/
  dir : PathBuf
  /-- Its name. -/
  name : Bytes
  /-- Its size, if it has been read. -/
  size : Option UInt64
  deriving DecidableEq

/-- The path bytes printed for an entry. -/
def entryPath (dir : PathBuf) (name : Bytes) : Bytes :=
  dir ++ (if needsSep dir then [byte '/'] else []) ++ name

/-- The record printed for a match. -/
def Match.record (output : OutputConfig) (m : Match) : Bytes :=
  (if output.longFormat then fmtSize (m.size.getD 0) else []) ++ entryPath m.dir m.name ++
    [byte '\n']

/-- The size of a match as far as it is known. -/
def Match.known (m : Match) : UInt64 := m.size.getD 0

/-- The size of a file lies within the bounds. -/
def inBounds (filter : FilterConfig) (s : UInt64) : Bool :=
  filter.minSize.all (· ≤ s) && filter.maxSize.all (s ≤ ·)

/-- The match that a subdirectory is: bounds on the size do not concern it. -/
def matchDir (fs : FileSystem) (filter : FilterConfig) (output : OutputConfig) (dir : PathBuf)
    (e : DirEntry) : Option Match :=
  if filter.matchDirs && !shouldSkipDirBytes e.fileName filter &&
      nameMatches e.fileName filter.extensions filter.namePattern then
    some ⟨dir, e.fileName,
      if needSize filter output then fs.metadata (dir.push e.fileName) else none⟩
  else none

/-- The match that a regular file is: its size must be within the bounds if it is needed. -/
def matchFile (filter : FilterConfig) (output : OutputConfig) (dir : PathBuf) (e : DirEntry) :
    Option Match :=
  if !filter.matchDirs && nameMatches e.fileName filter.extensions filter.namePattern then
    if needSize filter output then
      (e.metadata.filter (inBounds filter)).map fun s => ⟨dir, e.fileName, some s⟩
    else some ⟨dir, e.fileName, none⟩
  else none

/-- The match that an entry of `dir` is. -/
def matchOf (fs : FileSystem) (filter : FilterConfig) (output : OutputConfig) (dir : PathBuf)
    (entry : Option DirEntry) : Option Match :=
  entry.bind fun e => match e.fileType with
    | some .dir => matchDir fs filter output dir e
    | some .file => matchFile filter output dir e
    | _ => none

/-- The subdirectory that an entry of `dir` is, unless it is skipped. -/
def childOf (filter : FilterConfig) (dir : PathBuf) (entry : Option DirEntry) : Option PathBuf :=
  entry.bind fun e =>
    if e.fileType = some .dir ∧ shouldSkipDirBytes e.fileName filter = false then
      some (dir.push e.fileName)
    else none

/-- The bytes printed for a match. -/
def printed (output : OutputConfig) (m : Match) : Bytes :=
  if printPaths output then m.record output else []

/-- Append the record of a match, count it and add its size. -/
def WorkerState.add (output : OutputConfig) (st : WorkerState) (m : Match) : WorkerState :=
  { st with
    out := st.out ++ printed output m
    localCount := st.localCount + 1
    localSize := st.localSize + m.known }

/-- What `walkEntry` does with a match, or without one. -/
def WorkerState.addMatch (output : OutputConfig) (st : WorkerState) :
    Option Match → WorkerState × Bool
  | none => (st, false)
  | some m => (st.add output m,
      printPaths output && outFlushBytes ≤ (st.add output m).out.length)

theorem Match.record_eq (output : OutputConfig) (m : Match) :
    ∃ line, m.record output = line ++ [byte '\n'] := ⟨_, rfl⟩

variable {fs : FileSystem} {filter : FilterConfig} {output : OutputConfig} {dir : PathBuf}
  {e : DirEntry} {st : WorkerState}

theorem matchOf_some {m : Match} (h : matchOf fs filter output dir (some e) = some m) :
    m.dir = dir ∧ m.name = e.fileName := by
  simp only [matchOf, Option.bind_some] at h
  split at h
  · simp only [matchDir, Option.ite_none_right_eq_some, Option.some.injEq] at h
    rw [← h.2]
    exact ⟨rfl, rfl⟩
  · simp only [matchFile, Option.ite_none_right_eq_some] at h
    obtain ⟨-, h⟩ := h
    split_ifs at h
    · obtain ⟨s, -, rfl⟩ := Option.map_eq_some_iff.1 h
      exact ⟨rfl, rfl⟩
    · cases h
      exact ⟨rfl, rfl⟩
  · cases h

theorem WorkerState.count_eq (st : WorkerState) (size : Option UInt64) :
    st.count size =
      { st with localCount := st.localCount + 1, localSize := st.localSize + size.getD 0 } := by
  cases size <;> simp [count]

theorem bounds_none (h : needSize filter output = false) :
    filter.minSize = none ∧ filter.maxSize = none := by
  simp only [needSize, Bool.or_eq_false_iff, Option.isSome_eq_false_iff,
    Option.isNone_iff_eq_none] at h
  exact ⟨h.1.2, h.2⟩

/-- A record appended behind the counters of a match: the long and the plain form of `walk_one`,
and that of `write_match`. -/
theorem addMatch_some (size : Option UInt64) (out : Bytes)
    (hout : out = pushPath (if output.longFormat then st.out ++ fmtSize (size.getD 0) else st.out)
      dir (needsSep dir) e.fileName) :
    (if printPaths output then
        ({ st.count size with out := out }, decide (outFlushBytes ≤ out.length))
      else (st.count size, false)) = st.addMatch output (some ⟨dir, e.fileName, size⟩) := by
  subst hout
  cases hp : printPaths output <;> cases hl : output.longFormat <;>
    simp [WorkerState.addMatch, WorkerState.add, WorkerState.count_eq, Match.known, printed,
      Match.record, entryPath, pushPath, hp, hl]

theorem writeMatch_eq (path : PathBuf) (need : Bool) :
    writeMatch fs output st dir (needsSep dir) e.fileName path need (printPaths output) =
      st.addMatch output (some ⟨dir, e.fileName, if need then fs.metadata path else none⟩) := by
  rw [← addMatch_some _ _ rfl]
  simp [writeMatch, WorkerState.count_eq]

theorem walkDir_eq : walkDir fs filter output dir e st =
    let x := st.addMatch output (matchDir fs filter output dir e)
    ({ x.1 with childDirs := x.1.childDirs ++
        (if shouldSkipDirBytes e.fileName filter then [] else [dir.push e.fileName]) }, x.2) := by
  unfold walkDir matchDir
  cases hs : shouldSkipDirBytes e.fileName filter with
  | true => simp [WorkerState.addMatch]
  | false =>
    simp only [PathBuf.push_nil, writeMatch_eq]
    split_ifs <;> simp_all [WorkerState.addMatch]

/-- A size passes both tests of `walk_one` if and only if it is within the bounds. -/
theorem inBounds_eq (s : UInt64) : inBounds filter s =
    (!filter.minSize.any (fun min => (some s).all (· < min)) &&
      !filter.maxSize.any (fun max => (some s).all (max < ·))) := by
  unfold inBounds
  cases filter.minSize <;> cases filter.maxSize <;>
    simp [← UInt64.not_le]

theorem walkFile_eq (hd : filter.matchDirs = false) : walkFile filter output dir e st =
    st.addMatch output (matchFile filter output dir e) := by
  have hout : ∀ size : Option UInt64,
      (if output.longFormat then
          pushPath ((st.count size).out ++ fmtSize (size.getD 0)) dir (needsSep dir) e.fileName
        else pushPath (st.count size).out dir (needsSep dir) e.fileName) =
      pushPath (if output.longFormat then st.out ++ fmtSize (size.getD 0) else st.out)
        dir (needsSep dir) e.fileName := by
    intro size
    rw [WorkerState.count_eq]
    split_ifs <;> rfl
  unfold walkFile matchFile
  cases hn : nameMatches e.fileName filter.extensions filter.namePattern with
  | false => simp [WorkerState.addMatch]
  | true =>
    simp only [hd, Bool.not_true, Bool.not_false, Bool.and_self, if_true]
    cases hs : needSize filter output with
    | false =>
      obtain ⟨hmin, hmax⟩ := bounds_none hs
      simp only [hmin, hmax, Option.any_none, Bool.false_eq_true, if_false]
      exact addMatch_some none _ (hout none)
    | true =>
      cases hm : e.metadata with
      | none => rfl
      | some size =>
        simp only [if_true, Option.map_some]
        rw [Option.filter, inBounds_eq]
        cases filter.minSize.any fun min => (some size).all (· < min) with
        | true => rfl
        | false =>
          cases filter.maxSize.any fun max => (some size).all (max < ·) with
          | true => rfl
          | false => exact addMatch_some (some size) _ (hout (some size))

theorem matchFile_fast (hd : filter.matchDirs = false) (hn : needFileName filter output = false) :
    matchFile filter output dir e = some ⟨dir, e.fileName, none⟩ := by
  simp only [needFileName, Bool.or_eq_false_iff, Bool.not_eq_false', Option.isSome_eq_false_iff,
    Option.isNone_iff_eq_none] at hn
  obtain ⟨⟨⟨-, hext⟩, hpat⟩, hsize⟩ := hn
  simp [matchFile, nameMatches, hd, hext, hpat, hsize]

/-- **What the loop body does with an entry.** -/
theorem walkEntry_eq (entry : Option DirEntry) : walkEntry fs filter output dir entry st =
    let x := st.addMatch output (matchOf fs filter output dir entry)
    ({ x.1 with childDirs := x.1.childDirs ++ (childOf filter dir entry).toList }, x.2) := by
  cases entry with
  | none => simp [walkEntry, matchOf, childOf, WorkerState.addMatch]
  | some e =>
    cases hft : e.fileType with
    | none => simp [walkEntry, matchOf, childOf, WorkerState.addMatch, hft]
    | some ft =>
      simp only [walkEntry, matchOf, childOf, hft, Option.bind_some]
      cases ft with
      | dir =>
        simp only [FileType.isFile, FileType.isDir, reduceCtorEq, decide_false, decide_true,
          Bool.false_and, Bool.false_eq_true, if_false, if_true, walkDir_eq, true_and]
        cases shouldSkipDirBytes e.fileName filter <;> simp
      | file =>
        simp only [FileType.isFile, FileType.isDir, reduceCtorEq, decide_false, decide_true,
          Bool.true_and, Bool.false_eq_true, if_false, Option.some.injEq, false_and,
          Option.toList_none, List.append_nil]
        cases hd : filter.matchDirs with
        | true => simp [matchFile, hd, WorkerState.addMatch]
        | false =>
          cases hn : needFileName filter output with
          | true => simp [walkFile_eq hd]
          | false =>
            have hp : printPaths output = false := by
              simp only [needFileName, Bool.or_eq_false_iff] at hn
              exact hn.1.1.1
            simp [matchFile_fast hd hn, WorkerState.addMatch, WorkerState.add, printed, hp,
              Match.known]
      | symlink | other =>
        simp [FileType.isFile, FileType.isDir, WorkerState.addMatch]

end Pfind
