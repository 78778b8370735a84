import Pfind.Walker.Match

/-!
# Which entries the walker counts

The branches of `walk_one` for files and for directories apply the filter each in its own way.
Here is the filter as one rule, `FilterConfig.accepts`: the kind of the entry, its name, and for a
regular file its size.

* `walkEntry_count` : **an entry is counted if and only if the rule accepts it**, whatever the
  output options are and whatever has been walked before.
* `not_walkEntry_count_sized` : bounds on the size do not concern directories: a directory of the
  wrong size is counted all the same.
-/

namespace Pfind

open Fs

namespace FilterConfig

/-- The name of the entry passes the extension list and the name pattern. -/
def acceptsName (filter : FilterConfig) (e : DirEntry) : Bool :=
  nameMatches e.fileName filter.extensions filter.namePattern

/-- If there is a bound, the size can be read and lies within the bounds. -/
def acceptsSize (filter : FilterConfig) (size : Option UInt64) : Bool :=
  filter.minSize.isNone && filter.maxSize.isNone || size.any (inBounds filter)

/-- The rule by which an entry is counted. -/
def accepts (filter : FilterConfig) (e : DirEntry) : Bool :=
  filter.acceptsName e &&
    if filter.matchDirs then
      e.fileType == some .dir && !shouldSkipDirBytes e.fileName filter
    else e.fileType == some .file && filter.acceptsSize e.metadata

/-- The rule that would apply the bounds to directories, too. -/
def acceptsSized (fs : FileSystem) (filter : FilterConfig) (dir : PathBuf) (e : DirEntry) : Bool :=
  filter.acceptsName e &&
    if filter.matchDirs then
      e.fileType == some .dir && !shouldSkipDirBytes e.fileName filter &&
        filter.acceptsSize (fs.metadata (dir.push e.fileName))
    else e.fileType == some .file && filter.acceptsSize e.metadata

end FilterConfig

variable {fs : FileSystem} {filter : FilterConfig} {output : OutputConfig} {dir : PathBuf}
  {e : DirEntry} {st : WorkerState}

theorem walkEntry_localCount (entry : Option DirEntry) :
    (walkEntry fs filter output dir entry st).1.localCount =
      st.localCount + (matchOf fs filter output dir entry).toList.length := by
  rw [walkEntry_eq]
  cases matchOf fs filter output dir entry <;> simp [WorkerState.addMatch, WorkerState.add]

theorem isSome_matchDir : (matchDir fs filter output dir e).isSome =
    (filter.matchDirs && !shouldSkipDirBytes e.fileName filter && filter.acceptsName e) := by
  rw [matchDir, FilterConfig.acceptsName]
  split
  case isTrue h => exact h.symm
  case isFalse h => exact (eq_false_of_ne_true h).symm

theorem isSome_matchFile : (matchFile filter output dir e).isSome =
    (!filter.matchDirs && filter.acceptsName e &&
      (!needSize filter output || e.metadata.any (inBounds filter))) := by
  rw [matchFile, FilterConfig.acceptsName]
  cases !filter.matchDirs && nameMatches e.fileName filter.extensions filter.namePattern with
  | false => rfl
  | true => cases needSize filter output <;> simp

theorem acceptsSize_eq
    (hm : filter.minSize = none → filter.maxSize = none → e.metadata.isSome = true) :
    (!needSize filter output || e.metadata.any (inBounds filter)) =
      filter.acceptsSize e.metadata := by
  cases hmin : filter.minSize with
  | some => simp [FilterConfig.acceptsSize, needSize, hmin]
  | none =>
    cases hmax : filter.maxSize with
    | some => simp [FilterConfig.acceptsSize, needSize, hmax]
    | none =>
      obtain ⟨size, hsize⟩ := Option.isSome_iff_exists.1 (hm hmin hmax)
      simp [FilterConfig.acceptsSize, inBounds, hsize, hmin, hmax]

theorem isSome_matchOf {entry : Option DirEntry}
    (hm : filter.minSize = none → filter.maxSize = none →
      ∀ e ∈ entry, e.fileType = some .file → e.metadata.isSome = true) :
    (matchOf fs filter output dir entry).isSome = entry.any filter.accepts := by
  cases entry with
  | none => rfl
  | some e =>
    simp only [matchOf, Option.bind_some, Option.any_some, FilterConfig.accepts]
    cases hft : e.fileType with
    | none => cases filter.matchDirs <;> simp
    | some ft =>
      cases ft with
      | dir =>
        rw [isSome_matchDir]
        cases filter.matchDirs <;> simp [Bool.and_comm]
      | file =>
        rw [isSome_matchFile, acceptsSize_eq fun hmin hmax => hm hmin hmax e rfl hft]
        cases filter.matchDirs <;> simp
      | symlink | other => cases filter.matchDirs <;> simp

/-- **An entry is counted if and only if the rule accepts it.**  If there is no bound on the size,
metadata is assumed to be readable. -/
theorem walkEntry_count (fs : FileSystem) (filter : FilterConfig) (output : OutputConfig)
    (dir : PathBuf) (entry : Option DirEntry) (st : WorkerState)
    (hm : filter.minSize = none → filter.maxSize = none →
      ∀ e ∈ entry, e.fileType = some .file → e.metadata.isSome = true) :
    (walkEntry fs filter output dir entry st).1.localCount =
      st.localCount + if entry.any filter.accepts then 1 else 0 := by
  have hsome : (matchOf fs filter output dir entry).isSome = entry.any filter.accepts :=
    isSome_matchOf hm
  rw [walkEntry_localCount, ← hsome]
  cases matchOf fs filter output dir entry <;> rfl

/-- A root `r` with an empty subdirectory `d`, which takes 64 bytes. -/
def oneDir : FileSystem where
  readDir p :=
    if p = [byte 'r'] then some [some ⟨[byte 'd'], some .dir, some 64⟩]
    else if p = [byte 'r', byte '/', byte 'd'] then some []
    else none
  metadata p := if p = [byte 'r', byte '/', byte 'd'] then some 64 else none
  height p := if p = [byte 'r'] then 1 else 0
  height_lt {dir es e} hr he hd := by
    split_ifs at hr with h1 h2
    · subst h1
      cases hr
      obtain rfl := Option.some.inj (List.mem_singleton.1 he)
      decide
    · cases hr
      cases he

/-- A file of three bytes, with a lower bound of two. -/
theorem walkEntry_count_file :
    (walkEntry oneDir ⟨[], [], some 2, none, none, false⟩ ⟨true, false, false⟩ [byte 'r']
      (some ⟨[byte 'f'], some .file, some 3⟩) .new).1.localCount = 1 :=
  walkEntry_count oneDir ⟨[], [], some 2, none, none, false⟩ ⟨true, false, false⟩ [byte 'r']
    (some ⟨[byte 'f'], some .file, some 3⟩) .new nofun

/-- **Bounds do not concern directories**: with a lower bound of 100 bytes, the directory of 64
bytes is counted. -/
theorem not_walkEntry_count_sized :
    ¬ ∀ (fs : FileSystem) (filter : FilterConfig) (output : OutputConfig) (dir : PathBuf)
        (entries : List (Option DirEntry)) (entry : Option DirEntry) (st : WorkerState),
      fs.readDir dir = some entries → entry ∈ entries →
      (filter.minSize = none → filter.maxSize = none →
        ∀ e ∈ entry, e.fileType = some .file → e.metadata.isSome = true) →
      (walkEntry fs filter output dir entry st).1.localCount =
        st.localCount + if entry.any (filter.acceptsSized fs dir) then 1 else 0 := by
  intro hall
  have h := hall oneDir ⟨[], [], some 100, none, none, true⟩ ⟨true, false, false⟩ [byte 'r'] _
    (some ⟨[byte 'd'], some .dir, some 64⟩) .new rfl (by simp) nofun
  revert h
  decide

end Pfind
