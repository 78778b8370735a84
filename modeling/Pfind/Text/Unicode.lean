import Pfind.Text.Affix
import Pfind.Text.Utf8

/-!
# White space and letter case in Unicode

White space is a fixed set of characters.  The case mappings are tables that grow with every
version of Unicode, so they are a parameter here, `CaseData`, with the few entries and properties
that programs rely on.  Lowercasing a text is more than mapping its characters: a capital sigma at
the end of a word becomes a final sigma.

* `toLowercase_ascii`, `toUppercase_ascii` : ASCII texts have their ASCII mapping.
* `toLowercase_eq_map_iff` : **lowercasing a text is its ASCII mapping if and only if no character
  outside ASCII is changed**.
-/

namespace Pfind

namespace Text

/-- The characters with the property `White_Space`. -/
def isWhitespace (c : Char) : Bool :=
  (0x9 ≤ c.val && c.val ≤ 0xD) || c.val == 0x20 || c.val == 0x85 || c.val == 0xA0 ||
    c.val == 0x1680 || (0x2000 ≤ c.val && c.val ≤ 0x200A) || c.val == 0x2028 ||
    c.val == 0x2029 || c.val == 0x202F || c.val == 0x205F || c.val == 0x3000

theorem map_eq_self {α : Type*} {f : α → α} {s : List α} (h : ∀ c ∈ s, f c = c) : s.map f = s :=
  (List.map_congr_left h).trans (List.map_id' s)

/-- The case mappings and the properties of characters that they depend on. -/
structure CaseData where
  /-- The lowercase mapping of a character. -/
  toLower : Char → List Char
  /-- The uppercase mapping of a character. -/
  toUpper : Char → List Char
  /-- The property `Cased`. -/
  cased : Char → Bool
  /-- The property `Case_Ignorable`. -/
  caseIgnorable : Char → Bool
  /-- ASCII characters have their ASCII mapping. -/
  toLower_ascii : ∀ c, IsAscii c → toLower c = [c.toLower]
  /-- ASCII characters have their ASCII mapping. -/
  toUpper_ascii : ∀ c, IsAscii c → toUpper c = [c.toUpper]
  /-- No character disappears. -/
  toLower_ne_nil : ∀ c, toLower c ≠ []
  /-- No character disappears. -/
  toUpper_ne_nil : ∀ c, toUpper c ≠ []
  /-- No white space appears. -/
  toUpper_not_whitespace :
    ∀ c, isWhitespace c = false → ∀ d ∈ toUpper c, isWhitespace d = false
  /-- The capital sigma, where it does not end a word. -/
  toLower_sigma : toLower 'Σ' = ['σ']

namespace CaseData

variable (U : CaseData)

/-- Behind characters that are ignored for this purpose comes one that has case. -/
def caseIgnorableThenCased (s : List Char) : Bool :=
  ((s.dropWhile U.caseIgnorable).head?).any U.cased

/-- The lowercase mapping of a character between `before`, in reverse, and `after`. -/
def lowerAt (before : List Char) (c : Char) (after : List Char) : List Char :=
  if c = 'Σ' then
    [if U.caseIgnorableThenCased before && !U.caseIgnorableThenCased after then 'ς' else 'σ']
  else U.toLower c

/-- The rest of a text in lowercase, behind `before`, in reverse. -/
def lowerLoop (before : List Char) : List Char → List Char
  | [] => []
  | c :: after => U.lowerAt before c after ++ lowerLoop (c :: before) after

/-- A text in lowercase. -/
def toLowercase (s : List Char) : List Char := U.lowerLoop [] s

/-- A text in uppercase. -/
def toUppercase (s : List Char) : List Char := s.flatMap U.toUpper

/-! ### Lowercase -/

variable {U}

theorem lowerAt_ne_nil (before : List Char) (c : Char) (after : List Char) :
    U.lowerAt before c after ≠ [] := by
  rw [lowerAt]
  split
  · exact List.cons_ne_nil _ _
  · exact U.toLower_ne_nil c

theorem toLower_of_not_isAscii {c : Char} (h : ¬ IsAscii c) : c.toLower = c := by
  unfold Char.toLower
  rw [dif_neg]
  intro hc
  exact h (UInt32.lt_of_le_of_lt hc.2 (by decide))

theorem lowerAt_eq_iff {before : List Char} {c : Char} {after : List Char} :
    U.lowerAt before c after = [c.toLower] ↔ (¬ IsAscii c → U.toLower c = [c]) := by
  unfold lowerAt
  by_cases hc : IsAscii c
  · have hs : c ≠ 'Σ' := by
      rintro rfl
      exact absurd hc (by decide)
    simp [hs, hc, U.toLower_ascii c hc]
  · simp only [hc, not_false_iff, true_imp_iff, toLower_of_not_isAscii hc]
    split_ifs with hs h <;> simp [hs, U.toLower_sigma]

theorem length_le_lowerLoop (before s : List Char) :
    s.length ≤ (U.lowerLoop before s).length := by
  induction s generalizing before with
  | nil => exact Nat.le_refl _
  | cons c s ih =>
    have hpos := List.length_pos_iff.2 (lowerAt_ne_nil (U := U) before c s)
    have hle := ih (c :: before)
    rw [lowerLoop, List.length_append, List.length_cons]
    omega

theorem lowerLoop_eq_map_iff (before s : List Char) :
    U.lowerLoop before s = s.map Char.toLower ↔ ∀ c ∈ s, ¬ IsAscii c → U.toLower c = [c] := by
  induction s generalizing before with
  | nil => simp [lowerLoop]
  | cons c s ih =>
    rw [List.forall_mem_cons, ← ih (c :: before), lowerLoop, List.map_cons]
    constructor
    · intro h
      -- no character disappears, so the first one has become one character
      have hlen := congrArg List.length h
      have hle := length_le_lowerLoop (U := U) (c :: before) s
      have hpos := List.length_pos_iff.2 (lowerAt_ne_nil (U := U) before c s)
      rw [List.length_append, List.length_cons, List.length_map] at hlen
      obtain ⟨d, hd⟩ := List.length_eq_one_iff.1 (show (U.lowerAt before c s).length = 1 by omega)
      rw [hd, List.singleton_append, List.cons_eq_cons] at h
      exact ⟨lowerAt_eq_iff.1 (hd.trans (congrArg (fun x => [x]) h.1)), h.2⟩
    · rintro ⟨hc, hs⟩
      rw [lowerAt_eq_iff.2 hc, hs, List.singleton_append]

/-- **Lowercasing a text is its ASCII mapping** if and only if no character outside ASCII is
changed. -/
theorem toLowercase_eq_map_iff {s : List Char} :
    U.toLowercase s = s.map Char.toLower ↔ ∀ c ∈ s, ¬ IsAscii c → U.toLower c = [c] :=
  lowerLoop_eq_map_iff [] s

theorem toLowercase_ascii {s : List Char} (h : ∀ c ∈ s, IsAscii c) :
    U.toLowercase s = s.map Char.toLower :=
  toLowercase_eq_map_iff.2 fun c hc hn => absurd (h c hc) hn

theorem count_le_toLowercase {d : Char} (hd : IsAscii d) (hl : d.toLower = d) (s : List Char) :
    s.count d ≤ (U.toLowercase s).count d := by
  suffices h : ∀ before, s.count d ≤ (U.lowerLoop before s).count d from h []
  induction s with
  | nil => exact fun _ => Nat.le_refl _
  | cons c s ih =>
    intro before
    rw [lowerLoop, List.count_append, List.count_cons]
    have hle := ih (c :: before)
    split_ifs with hc
    · obtain rfl := beq_iff_eq.1 hc
      have hat : U.lowerAt before c s = [c] := by
        rw [lowerAt_eq_iff.2 fun hn => absurd hd hn, hl]
      rw [hat, List.count_singleton_self]
      omega
    · omega

/-! ### Uppercase -/

theorem toUpper_of_not_isAscii {c : Char} (h : ¬ IsAscii c) : c.toUpper = c := by
  unfold Char.toUpper
  rw [dif_neg]
  intro hc
  exact h (UInt32.lt_of_le_of_lt hc.2 (by decide))

theorem toUppercase_ascii {s : List Char} (h : ∀ c ∈ s, IsAscii c) :
    U.toUppercase s = s.map Char.toUpper := by
  induction s with
  | nil => rfl
  | cons c s ih =>
    obtain ⟨hc, hs⟩ := List.forall_mem_cons.1 h
    rw [toUppercase, List.flatMap_cons, U.toUpper_ascii c hc, ← toUppercase, ih hs]
    rfl

theorem bare_toUppercase {s : List Char} (hs : Bare isWhitespace s) :
    Bare isWhitespace (U.toUppercase s) := by
  cases s with
  | nil => exact hs
  | cons c s =>
    obtain ⟨d, ds, hd⟩ := List.exists_cons_of_ne_nil (U.toUpper_ne_nil c)
    intro x hx
    rw [toUppercase, List.flatMap_cons, hd] at hx
    obtain rfl := Option.some.inj hx
    exact U.toUpper_not_whitespace c (hs c rfl) d (by rw [hd]; simp)

/-! ### A sample -/

theorem isWhitespace_toUpper {c : Char} (hc : IsAscii c) (h : isWhitespace c = false) :
    isWhitespace c.toUpper = false := by
  have hall : isWhitespace c = false → isWhitespace c.toUpper = false :=
    forall_isAscii (P := fun c => isWhitespace c = false → isWhitespace c.toUpper = false)
      (by decide) hc
  exact hall h

/-- The lowercase mapping of ASCII, of the Latin-1 capitals and of sigma, and the uppercase mapping
of ASCII; no other character is changed. -/
def latin1 : CaseData where
  toLower c :=
    if IsAscii c then [c.toLower]
    else if 0xC0 ≤ c.val ∧ c.val ≤ 0xDE ∧ c.val ≠ 0xD7 then [Char.ofNat (c.toNat + 32)]
    else if c = 'Σ' then ['σ']
    else [c]
  toUpper c := if IsAscii c then [c.toUpper] else [c]
  cased c := c.isAlpha
  caseIgnorable c := c = '\''
  toLower_ascii c hc := if_pos hc
  toUpper_ascii c hc := if_pos hc
  toLower_ne_nil c := by split_ifs <;> simp
  toUpper_ne_nil c := by split_ifs <;> simp
  toUpper_not_whitespace c hc d hd := by
    split_ifs at hd with ha <;> obtain rfl := List.mem_singleton.1 hd
    · exact isWhitespace_toUpper ha hc
    · exact hc
  toLower_sigma := by decide

end CaseData

end Text

end Pfind
