import Mathlib.Algebra.GroupWithZero.Nat
import Mathlib.Data.List.Basic

/-!
# Byte strings

File names, paths and patterns are handled as bytes throughout the program
(`OsStr::as_bytes`, `str::as_bytes`), so they are lists of `UInt8` here.  A number is printed in
decimal as Rust's `Display` does, and read as its digits say.  A text is written as a sequence of
lines, each with a separator behind it.

* `readDecimal_decimal` : what is printed is what is read.
* `isDigit_of_mem_decimal` : only digits are printed.
* `lines_unlines` : **the lines can be read back**, if the separator occurs in none of them.
* `count_unlines` : the separators of the text are those behind the lines and those inside.
-/

namespace Pfind

/-- A byte string. -/
abbrev Bytes := List UInt8

/-- The byte of an ASCII character, `b'c'` in the source. -/
def byte (c : Char) : UInt8 := c.toUInt8

/-- `str::as_bytes` : the UTF-8 encoding of a string. -/
def asBytes (s : String) : Bytes := s.toList.flatMap String.utf8EncodeChar

/-- `u8::to_ascii_lowercase`. -/
def toAsciiLowercase (b : UInt8) : UInt8 :=
  if byte 'A' ≤ b ∧ b ≤ byte 'Z' then b + 32 else b

/-! ### Decimal numbers -/

namespace Text

/-- A number in decimal. -/
def decimal (k : ℕ) : Bytes := (Nat.toDigits 10 k).map byte

/-- `is_ascii_digit`. -/
def isDigit (b : UInt8) : Bool := byte '0' ≤ b && b ≤ byte '9'

/-- The number that some digits stand for. -/
def readDecimal (ds : Bytes) : ℕ := Nat.ofDigitChars 10 (ds.map fun b => Char.ofNat b.toNat) 0

theorem byte_digit {c : Char} (h : c.isDigit = true) :
    isDigit (byte c) = true ∧ Char.ofNat (byte c).toNat = c := by
  have hall : ∀ k < 58, 48 ≤ k → isDigit (byte (Char.ofNat k)) = true ∧
      Char.ofNat (byte (Char.ofNat k)).toNat = Char.ofNat k := by decide
  simp only [Char.isDigit, Bool.and_eq_true, decide_eq_true_eq] at h
  have hc := hall c.toNat (Nat.lt_succ_of_le h.2) h.1
  rwa [Char.ofNat_toNat] at hc

theorem isDigit_of_mem_toDigits {k : ℕ} {c : Char} (h : c ∈ Nat.toDigits 10 k) :
    c.isDigit = true := Nat.isDigit_of_mem_toDigits (by decide) (by decide) h

theorem isDigit_of_mem_decimal {k : ℕ} {b : UInt8} (h : b ∈ decimal k) : isDigit b = true := by
  obtain ⟨c, hc, rfl⟩ := List.mem_map.1 h
  exact (byte_digit (isDigit_of_mem_toDigits hc)).1

theorem decimal_ne_nil (k : ℕ) : decimal k ≠ [] := by
  simp [decimal, Nat.toDigits_ne_nil]

/-- **What is printed is what is read.** -/
theorem readDecimal_decimal (k : ℕ) : readDecimal (decimal k) = k := by
  have hmap : (decimal k).map (fun b => Char.ofNat b.toNat) = Nat.toDigits 10 k := by
    rw [decimal, List.map_map]
    refine (List.map_congr_left fun c hc => ?_).trans (List.map_id _)
    exact (byte_digit (isDigit_of_mem_toDigits hc)).2
  rw [readDecimal, hmap, Nat.ofDigitChars_ten_toDigits]

/-! ### Lines -/

variable {α : Type*}

/-- The lines, with a separator behind each. -/
def unlines (sep : α) (ls : List (List α)) : List α := ls.flatMap fun l => l ++ [sep]

theorem unlines_append (sep : α) (ls ls' : List (List α)) :
    unlines sep (ls ++ ls') = unlines sep ls ++ unlines sep ls' := List.flatMap_append

theorem unlines_eq_intercalate (sep : α) (ls : List (List α)) :
    unlines sep ls = [sep].intercalate (ls ++ [[]]) := by
  induction ls with
  | nil => rfl
  | cons l ls ih =>
    rw [List.cons_append, List.intercalate_cons_of_ne_nil (by simp), ← ih]
    rfl

variable [DecidableEq α] {sep : α} {ls : List (List α)}

/-- The lines of a text that ends in a separator. -/
def lines (sep : α) (s : List α) : List (List α) := (s.splitOn sep).dropLast

/-- **The lines can be read back.** -/
theorem lines_unlines (h : ∀ l ∈ ls, sep ∉ l) : lines sep (unlines sep ls) = ls := by
  rw [lines, unlines_eq_intercalate, List.splitOn_intercalate sep _ (by simp)]
  · exact List.dropLast_concat
  · intro l hl
    rcases List.mem_append.1 hl with hl | hl
    · exact h l hl
    · rw [List.mem_singleton.1 hl]
      exact List.not_mem_nil

theorem count_unlines (sep : α) (ls : List (List α)) :
    (unlines sep ls).count sep = ls.length + (ls.map (List.count sep)).sum := by
  induction ls with
  | nil => rfl
  | cons l ls ih =>
    rw [unlines, List.flatMap_cons, List.count_append, List.count_append, List.count_singleton_self]
    rw [unlines] at ih
    rw [ih, List.length_cons, List.map_cons, List.sum_cons]
    omega

end Text

end Pfind
