import Pfind.Cli.Basic
import Pfind.Fs.Basic
import Pfind.Process.Basic

/-!
# The walker (`walker.rs`)

The part of `walk_one` that concerns one worker alone: what it does with each entry of a
directory.  `walkEntry` is the body of its loop; it returns the new `WorkerState` and whether
`flush_out` is called next.  Reading the directory, writing to stdout and publishing the
subdirectories touch what the workers share, and are steps of `Pfind.Scheduler.Basic`.

Match counts are natural numbers: a count of directory entries, each of which occupies storage,
does not reach `2 ^ 64`.  Sizes are `UInt64`, which wraps.
-/

namespace Pfind

open Fs

/-- Per-worker scratch state. -/
structure WorkerState where
  /-- Records not written yet. -/
  out : Bytes
  /-- Number of matches. -/
  localCount : ℕ
  /-- Sum of the known sizes of the matches. -/
  localSize : UInt64
  /-- Subdirectories found in the directory being walked. -/
  childDirs : List PathBuf
  deriving DecidableEq

/-- `WorkerState::new` ; the capacities have no effect on what is computed. -/
def WorkerState.new : WorkerState := ⟨[], 0, 0, []⟩

/-- `OUT_FLUSH_BYTES`. -/
def outFlushBytes : ℕ := 256 * 1024

/-! ### Filters -/

/-- `any_extension_matches`. -/
def anyExtensionMatches (name : Bytes) (exts : List String) : Bool :=
  exts.any fun e => nameMatchesExtension name (asBytes e)

/-- `name_matches`. -/
def nameMatches (name : Bytes) (exts : List String) (pat : Option String) : Bool :=
  if !exts.isEmpty && !anyExtensionMatches name exts then false
  else match pat with
    | some p => globMatch (asBytes p) name
    | none => true

/-- One pattern of `should_skip_dir_bytes` : the name itself, or its end behind a leading star. -/
def skipMatches (s name : Bytes) : Bool :=
  s == name || match s with
    | c :: suffix => c == byte '*' && (decide (suffix.length ≤ name.length) &&
        name.drop (name.length - suffix.length) == suffix)
    | [] => false

/-- `should_skip_dir_bytes`. -/
def shouldSkipDirBytes (name : Bytes) (filter : FilterConfig) : Bool :=
  if filter.skipDirs.isEmpty then false
  else filter.skipDirs.any fun skip => skipMatches (asBytes skip) name

/-- `need_size`. -/
def needSize (filter : FilterConfig) (output : OutputConfig) : Bool :=
  output.sumSize || output.longFormat || filter.minSize.isSome || filter.maxSize.isSome

/-- `print_paths`. -/
def printPaths (output : OutputConfig) : Bool := !output.countOnly

/-- `need_file_name`. -/
def needFileName (filter : FilterConfig) (output : OutputConfig) : Bool :=
  printPaths output || !filter.extensions.isEmpty || filter.namePattern.isSome ||
    needSize filter output

/-! ### Records -/

/-- `{:>12}` and two blanks. -/
def fmtSize (size : UInt64) : Bytes :=
  ((Nat.toDigits 10 size.toNat).map byte).leftpad 12 (byte ' ') ++ [byte ' ', byte ' ']

/-- The directory, a separator if needed, the name and a newline behind `out`. -/
def pushPath (out dirBytes : Bytes) (dirNeedsSep : Bool) (nameBytes : Bytes) : Bytes :=
  out ++ dirBytes ++ (if dirNeedsSep then [byte '/'] else []) ++ nameBytes ++ [byte '\n']

/-- Count a match of the given size. -/
def WorkerState.count (st : WorkerState) (size : Option UInt64) : WorkerState :=
  { st with
    localCount := st.localCount + 1
    localSize := match size with
      | some s => st.localSize + s
      | none => st.localSize }

/-- `write_match`, up to the call of `flush_out`. -/
def writeMatch (fs : FileSystem) (output : OutputConfig) (st : WorkerState) (dirBytes : Bytes)
    (dirNeedsSep : Bool) (nameBytes : Bytes) (fullPath : PathBuf) (needSize printPaths : Bool) :
    WorkerState × Bool :=
  let size := if needSize then fs.metadata fullPath else none
  let st := st.count size
  if printPaths then
    let out := if output.longFormat then st.out ++ fmtSize (size.getD 0) else st.out
    let out := pushPath out dirBytes dirNeedsSep nameBytes
    ({ st with out := out }, outFlushBytes ≤ out.length)
  else (st, false)

/-- The branch of `walk_one` for a subdirectory. -/
def walkDir (fs : FileSystem) (filter : FilterConfig) (output : OutputConfig) (dir : PathBuf)
    (e : DirEntry) (st : WorkerState) : WorkerState × Bool :=
  if shouldSkipDirBytes e.fileName filter then (st, false)
  else
    let child := (PathBuf.push [] dir).push e.fileName
    let x :=
      if filter.matchDirs && nameMatches e.fileName filter.extensions filter.namePattern then
        writeMatch fs output st dir (needsSep dir) e.fileName child (needSize filter output)
          (printPaths output)
      else (st, false)
    -- a flush would come before this push, which no other worker sees
    ({ x.1 with childDirs := x.1.childDirs ++ [child] }, x.2)

/-- The branch of `walk_one` for a regular file. -/
def walkFile (filter : FilterConfig) (output : OutputConfig) (dir : PathBuf) (e : DirEntry)
    (st : WorkerState) : WorkerState × Bool :=
  if !nameMatches e.fileName filter.extensions filter.namePattern then (st, false)
  else match if needSize filter output then e.metadata.map some else some none with
    | none => (st, false)
    | some size =>
      -- `size.is_none_or(..)` holds of a size that has not been read
      if filter.minSize.any fun min => size.all (· < min) then (st, false)
      else if filter.maxSize.any fun max => size.all (max < ·) then (st, false)
      else
        let st := st.count size
        if printPaths output then
          let out :=
            if output.longFormat then
              pushPath (st.out ++ fmtSize (size.getD 0)) dir (needsSep dir) e.fileName
            else pushPath st.out dir (needsSep dir) e.fileName
          ({ st with out := out }, outFlushBytes ≤ out.length)
        else (st, false)

/-- The body of the loop of `walk_one` over the entries of `dir`. -/
def walkEntry (fs : FileSystem) (filter : FilterConfig) (output : OutputConfig) (dir : PathBuf)
    (entry : Option DirEntry) (st : WorkerState) : WorkerState × Bool :=
  match entry with
  | none => (st, false)
  | some e => match e.fileType with
    | none => (st, false)
    | some ft =>
      -- the name of the entry is not even read here
      if ft.isFile && !filter.matchDirs && !needFileName filter output then
        ({ st with localCount := st.localCount + 1 }, false)
      else if ft.isDir then walkDir fs filter output dir e st
      else if ft.isFile && !filter.matchDirs then walkFile filter output dir e st
      else (st, false)

end Pfind
