import Pfind.Text.Bytes
import Pfind.Tree.Unfolding

/-!
# Directories and paths

What the walker learns from `std::fs` about a directory tree that stays fixed during the run: the
listing of each directory, with the type and the metadata of each entry, and the metadata of a
path.  Every one of these may fail.  `PathBuf` is a path as bytes, with `PathBuf::push`.

A `FileSystem` has finite height: a subdirectory has fewer levels below it than the directory
that lists it.
-/

namespace Pfind

namespace Fs

/-- `std::fs::FileType` of a directory entry, which does not follow symlinks. -/
inductive FileType where
  | dir
  | file
  | symlink
  | other
  deriving DecidableEq

/-- `FileType::is_dir`. -/
def FileType.isDir (ft : FileType) : Bool := ft = .dir

/-- `FileType::is_file`. -/
def FileType.isFile (ft : FileType) : Bool := ft = .file

/-- `std::fs::DirEntry`. -/
structure DirEntry where
  /-- `file_name()`. -/
  fileName : Bytes
  /-- `file_type()`, or an error. -/
  fileType : Option FileType
  /-- `metadata()?.len()`, or an error. -/
  metadata : Option UInt64
  deriving DecidableEq

/-- `std::path::PathBuf`. -/
abbrev PathBuf := Bytes

/-- A separator belongs between the path and a name. -/
def needsSep (p : PathBuf) : Bool := !p.isEmpty && p.getLast? != some (byte '/')

/-- `PathBuf::push` : an absolute path replaces the buffer, any other is appended to it, with a
separator if the buffer is not empty and does not end in one. -/
def PathBuf.push (p q : PathBuf) : PathBuf :=
  if q.head? = some (byte '/') then q
  else if needsSep p then p ++ byte '/' :: q
  else p ++ q

theorem PathBuf.push_nil (p : PathBuf) : PathBuf.push [] p = p := by
  unfold push; split_ifs <;> simp_all [needsSep]

/-- A directory tree. -/
structure FileSystem where
  /-- `fs::read_dir(dir)` with all its entries, each of which may be an error. -/
  readDir : PathBuf → Option (List (Option DirEntry))
  /-- `fs::metadata(path)?.len()`, which follows symlinks. -/
  metadata : PathBuf → Option UInt64
  /-- A bound on the number of levels below a directory. -/
  height : PathBuf → ℕ
  /-- The tree is finite: a subdirectory has fewer levels below it. -/
  height_lt : ∀ {dir es e}, readDir dir = some es → some e ∈ es → e.fileType = some .dir →
    height (dir.push e.fileName) < height dir

/-- The entries of a directory, none if it cannot be read. -/
def FileSystem.listing (fs : FileSystem) (dir : PathBuf) : List (Option DirEntry) :=
  (fs.readDir dir).getD []

theorem FileSystem.height_lt_of_mem (fs : FileSystem) {dir : PathBuf} {e : DirEntry}
    (he : some e ∈ fs.listing dir) (hd : e.fileType = some .dir) :
    fs.height (dir.push e.fileName) < fs.height dir := by
  unfold listing at he
  cases hr : fs.readDir dir with
  | none => simp [hr] at he
  | some es => exact fs.height_lt hr (by simpa [hr] using he) hd

end Fs

end Pfind
