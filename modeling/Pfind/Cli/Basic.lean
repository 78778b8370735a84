import Pfind.Fs.Basic
import Pfind.Text.Affix
import Pfind.Text.Unicode

/-!
# The command line (`cli.rs`)

`Cli` is what the arguments have been parsed into, and `filterConfig` and `outputConfig` are what
the walker gets of it, a `FilterConfig` and an `OutputConfig`.  Sizes are parsed as floating-point numbers, of which the model knows the
operations used and nothing else (`F64`); the tables of letter case are a parameter, too.
-/

namespace Pfind

open Text

/-! ### File type presets -/

/-- Preset file type categories. -/
inductive Cli.FileType where
  /-- Model files. -/
  | models
  /-- Checkpoints. -/
  | checkpoints
  /-- Dataset files. -/
  | data
  /-- Image files. -/
  | images
  /-- Audio files. -/
  | audio
  /-- Video files. -/
  | video
  /-- Config files. -/
  | configs
  /-- Python files. -/
  | python
  /-- Text/docs. -/
  | text
  /-- Logs. -/
  | logs
  deriving DecidableEq

/-- `FileType::extensions`. -/
def Cli.FileType.extensions : Cli.FileType → List String
  | .models => ["pt", "pth", "ckpt", "safetensors", "onnx", "h5", "hdf5", "pb", "tflite", "bin",
      "model", "weights"]
  | .checkpoints => ["ckpt", "pt", "pth", "safetensors"]
  | .data => ["csv", "parquet", "arrow", "tfrecord", "jsonl", "json", "tsv", "npy", "npz", "pkl",
      "pickle", "feather", "hdf5", "h5"]
  | .images => ["jpg", "jpeg", "png", "webp", "bmp", "tiff", "tif", "gif", "ico"]
  | .audio => ["wav", "mp3", "flac", "ogg", "m4a", "aac", "wma"]
  | .video => ["mp4", "avi", "mkv", "mov", "webm", "flv", "wmv", "m4v"]
  | .configs => ["yaml", "yml", "json", "toml", "cfg", "ini", "conf"]
  | .python => ["py", "pyi", "ipynb", "pyx", "pxd"]
  | .text => ["txt", "md", "rst", "tex", "rtf"]
  | .logs => ["log", "out", "err"]

/-! ### Filter and output options -/

/-- Filter criteria. -/
structure FilterConfig where
  /-- Extensions to match (lowercase, no leading dot). -/
  extensions : List String
  /-- Directories to skip. -/
  skipDirs : List String
  /-- Minimum file size in bytes. -/
  minSize : Option UInt64
  /-- Maximum file size in bytes. -/
  maxSize : Option UInt64
  /-- Glob pattern for file names. -/
  namePattern : Option String
  /-- Whether to match directories instead of files. -/
  matchDirs : Bool

/-- Output options. -/
structure OutputConfig where
  /-- Only count, don't print paths. -/
  countOnly : Bool
  /-- Show the total size. -/
  sumSize : Bool
  /-- Show the size alongside each path. -/
  longFormat : Bool

/-! ### Arguments -/

/-- The command line. -/
structure Cli where
  /-- Root directory to search. -/
  root : Fs.PathBuf
  /-- File type preset to search for. -/
  fileType : Option Cli.FileType
  /-- Custom extensions to match. -/
  ext : List String
  /-- Minimum file size. -/
  minSize : Option String
  /-- Maximum file size. -/
  maxSize : Option String
  /-- Additional directories to skip. -/
  skip : List String
  /-- Don't skip common junk directories. -/
  noSkipDefaults : Bool
  /-- Only count matching files, don't print paths. -/
  count : Bool
  /-- Show total size of matching files. -/
  sumSize : Bool
  /-- Show file sizes alongside paths. -/
  long : Bool
  /-- Print matching directories instead of files. -/
  dirs : Bool
  /-- Match files by name pattern. -/
  name : Option String

/-- `if !list.contains(&x) { list.push(x) }`. -/
def pushNew (list : List String) (x : String) : List String :=
  if list.contains x then list else list ++ [x]

theorem mem_foldl_pushNew {x : String} {list xs : List String} :
    x ∈ xs.foldl pushNew list ↔ x ∈ list ∨ x ∈ xs := by
  induction xs generalizing list with
  | nil => simp
  | cons y xs ih =>
    have hpush : x ∈ pushNew list y ↔ x ∈ list ∨ x = y := by
      unfold pushNew
      split_ifs with h
      · have hy : y ∈ list := List.contains_iff_mem.1 h
        exact ⟨Or.inl, fun hx => hx.elim id fun he => he ▸ hy⟩
      · simp
    rw [List.foldl_cons, ih, hpush, List.mem_cons, or_assoc]

namespace Cli

/-- `trim_start_matches('.')`. -/
def trimDots (e : String) : String := String.ofList (e.toList.dropWhile (· == '.'))

/-- `all_extensions`. -/
def allExtensions (U : CaseData) (cli : Cli) : List String :=
  let exts := cli.ext.map fun e => String.ofList (U.toLowercase (trimDots e).toList)
  match cli.fileType with
  | some ft => ft.extensions.foldl pushNew exts
  | none => exts

/-- The directories that `skip_dirs` adds unless told not to. -/
def defaultSkips : List String :=
  [".git", ".hg", ".svn", "__pycache__", ".pytest_cache", ".mypy_cache", ".ruff_cache",
    "node_modules", ".venv", "venv", ".env", "env", ".tox", ".nox", ".eggs", "*.egg-info", "build",
    "dist", ".ipynb_checkpoints", "wandb", "mlruns", "lightning_logs", "outputs", ".cache",
    "__MACOSX", ".DS_Store", "Thumbs.db"]

/-- `skip_dirs`. -/
def skipDirs (cli : Cli) : List String :=
  if cli.noSkipDefaults then cli.skip else defaultSkips.foldl pushNew cli.skip

/-! ### Sizes -/

/-- The floating-point numbers `f64` and the operations on them that sizes need. -/
structure F64 where
  /-- The numbers. -/
  Num : Type
  /-- `f64::from_str`. -/
  fromStr : List Char → Option Num
  /-- The cast `as f64`. -/
  ofU64 : UInt64 → Num
  /-- Multiplication. -/
  mul : Num → Num → Num
  /-- The cast `as u64`. -/
  toU64 : Num → UInt64

/-- The text without its unit, and the multiplier of the unit. -/
def splitUnit (s : List Char) : List Char × UInt64 :=
  if ['G'].isSuffixOf s || ['G', 'B'].isSuffixOf s then
    (trimEndMatches ['G'] (trimEndMatches ['G', 'B'] s), 1024 * 1024 * 1024)
  else if ['M'].isSuffixOf s || ['M', 'B'].isSuffixOf s then
    (trimEndMatches ['M'] (trimEndMatches ['M', 'B'] s), 1024 * 1024)
  else if ['K'].isSuffixOf s || ['K', 'B'].isSuffixOf s then
    (trimEndMatches ['K'] (trimEndMatches ['K', 'B'] s), 1024)
  else if ['B'].isSuffixOf s then (trimEndMatches ['B'] s, 1)
  else (s, 1)

/-- `parse_size`. -/
def parseSize (U : CaseData) (F : F64) (s : String) : Except String UInt64 :=
  let s := U.toUppercase (trim isWhitespace s.toList)
  let (num, mult) := splitUnit s
  match F.fromStr (trim isWhitespace num) with
  | some n => .ok (F.toU64 (F.mul n (F.ofU64 mult)))
  | none => .error ("Invalid size: " ++ String.ofList s)

/-- `min_size_bytes`. -/
def minSizeBytes (U : CaseData) (F : F64) (cli : Cli) : Option UInt64 :=
  cli.minSize.bind fun s => (parseSize U F s).toOption

/-- `max_size_bytes`. -/
def maxSizeBytes (U : CaseData) (F : F64) (cli : Cli) : Option UInt64 :=
  cli.maxSize.bind fun s => (parseSize U F s).toOption

/-! ### What the walker gets -/

/-- `filter_config`. -/
def filterConfig (U : CaseData) (F : F64) (cli : Cli) : FilterConfig where
  extensions := cli.allExtensions U
  skipDirs := cli.skipDirs
  minSize := cli.minSizeBytes U F
  maxSize := cli.maxSizeBytes U F
  namePattern := cli.name
  matchDirs := cli.dirs

/-- `output_config`. -/
def outputConfig (cli : Cli) : OutputConfig where
  countOnly := cli.count
  sumSize := cli.sumSize
  longFormat := cli.long

end Cli

end Pfind
