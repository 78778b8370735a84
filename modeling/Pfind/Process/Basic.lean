import Pfind.Text.Bytes

/-!
# Filter primitives of the walker (`process.rs`)

`globMatch` is the two-pointer glob matcher and `nameMatchesExtension` the extension test.  The
main loop of `glob_match` is `globLoop`, one iteration of it being `globStep`; it takes the
number of iterations that it may still run, and `none` would mean that they were used up.
`Pfind.Process.GlobMatch` proves that `(|pat| + 1) * (|s| + 1)` iterations are enough.

* `nameMatchesExtension_iff` : **the extension test accepts a name if and only if it is a stem, a dot
  and a suffix that is the extension in ASCII lowercase.**
* `nameMatchesExtension?_eq` : the test accesses the name within its bounds only.
-/

namespace Pfind

/-- The variables of the main loop of `glob_match`. -/
structure GlobState where
  /-- Position in the pattern. -/
  pi : ℕ
  /-- Position in the name. -/
  si : ℕ
  /-- Position of the last star seen, the one backtrack point. -/
  star : Option ℕ
  /-- Where in the name the run of that star currently ends. -/
  matchSi : ℕ
  deriving DecidableEq

/-- One iteration of the main loop; `none` is `return false`. -/
def globStep (pat s : Bytes) (st : GlobState) : Option GlobState :=
  if st.pi < pat.length ∧ (pat[st.pi]? = some (byte '?') ∨ pat[st.pi]? = s[st.si]?) then
    some { st with pi := st.pi + 1, si := st.si + 1 }
  else if st.pi < pat.length ∧ pat[st.pi]? = some (byte '*') then
    some { st with star := some st.pi, matchSi := st.si, pi := st.pi + 1 }
  else match st.star with
    | some sp => some { st with pi := sp + 1, matchSi := st.matchSi + 1, si := st.matchSi + 1 }
    | none => none

/-- The loop behind the main one skips stars, and the pattern must then be used up. -/
def globTail (pat : Bytes) (pi : ℕ) : Bool :=
  pi + ((pat.drop pi).takeWhile (· == byte '*')).length == pat.length

/-- The main loop, run for at most `fuel` iterations. -/
def globLoop (pat s : Bytes) : ℕ → GlobState → Option Bool
  | 0, st => if st.si < s.length then none else some (globTail pat st.pi)
  | fuel + 1, st =>
    if st.si < s.length then
      match globStep pat s st with
      | some st' => globLoop pat s fuel st'
      | none => some false
    else some (globTail pat st.pi)

/-- The variables before the first iteration. -/
def GlobState.init : GlobState := ⟨0, 0, none, 0⟩

/-- `glob_match`. -/
def globMatch (pat s : Bytes) : Bool :=
  (globLoop pat s ((pat.length + 1) * (s.length + 1)) .init).getD false

/-- `name_matches_extension` : `name` ends with `.ext`, letters compared without case on the
side of the name. -/
def nameMatchesExtension (name ext : Bytes) : Bool :=
  if name.length ≤ ext.length then false
  else
    let dotIdx := name.length - ext.length - 1
    if name[dotIdx]? ≠ some (byte '.') then false
    else
      let suffix := name.drop (dotIdx + 1)
      (suffix.zip ext).all fun ab => toAsciiLowercase ab.1 == ab.2

/-! ### The extension test -/

theorem toAsciiLowercase_eq_dot {b : UInt8} : toAsciiLowercase b = byte '.' ↔ b = byte '.' := by
  unfold toAsciiLowercase byte
  split_ifs with h
  · rw [UInt8.le_iff_toNat_le, UInt8.le_iff_toNat_le] at h
    simp only [← UInt8.toNat_inj, UInt8.toNat_add]
    have h₁ : Char.toUInt8 'A' = 65 := rfl
    have h₂ : Char.toUInt8 'Z' = 90 := rfl
    have h₃ : Char.toUInt8 '.' = 46 := rfl
    simp only [h₁, h₂, h₃] at h ⊢
    simp at h ⊢
    omega
  · rfl

theorem zip_all_iff {s ext : Bytes} (h : s.length = ext.length) :
    ((s.zip ext).all fun ab => toAsciiLowercase ab.1 == ab.2) = true ↔
      s.map toAsciiLowercase = ext := by
  induction s generalizing ext with
  | nil => simp [List.length_eq_zero_iff.1 h.symm]
  | cons a s ih =>
    cases ext with
    | nil => cases h
    | cons b ext => simp [ih (Nat.succ.inj h)]

/-- **What the extension test accepts.** -/
theorem nameMatchesExtension_iff {name ext : Bytes} : nameMatchesExtension name ext = true ↔
    ∃ stem suffix, name = stem ++ byte '.' :: suffix ∧ suffix.map toAsciiLowercase = ext := by
  unfold nameMatchesExtension
  dsimp only
  constructor
  · intro h
    split_ifs at h with hlen hdot
    have hidx : name.length - ext.length - 1 < name.length := by omega
    rw [ne_eq, not_not] at hdot
    refine ⟨name.take (name.length - ext.length - 1), name.drop (name.length - ext.length - 1 + 1),
      ?_, (zip_all_iff ?_).1 h⟩
    · rw [List.getElem?_eq_getElem hidx] at hdot
      rw [← Option.some.inj hdot, List.getElem_cons_drop, List.take_append_drop]
    · rw [List.length_drop]
      omega
  · rintro ⟨stem, suffix, rfl, rfl⟩
    have hidx : (stem ++ byte '.' :: suffix).length - (suffix.map toAsciiLowercase).length - 1 =
        stem.length := by
      simp only [List.length_append, List.length_cons, List.length_map]
      omega
    have hlen : ¬ (stem ++ byte '.' :: suffix).length ≤ (suffix.map toAsciiLowercase).length := by
      simp only [List.length_append, List.length_cons, List.length_map]
      omega
    have hdot : (stem ++ byte '.' :: suffix)[stem.length]? = some (byte '.') := by simp
    have hdrop : (stem ++ byte '.' :: suffix).drop (stem.length + 1) = suffix := by simp
    rw [if_neg hlen, hidx, hdot, if_neg (not_not.2 rfl), hdrop]
    exact (zip_all_iff (List.length_map _).symm).2 rfl

theorem nameMatchesExtension_iff_suffix {name ext : Bytes} :
    nameMatchesExtension name ext = true ↔ byte '.' :: ext <:+ name.map toAsciiLowercase := by
  rw [nameMatchesExtension_iff]
  constructor
  · rintro ⟨stem, suffix, rfl, rfl⟩
    refine ⟨stem.map toAsciiLowercase, ?_⟩
    rw [List.map_append, List.map_cons, toAsciiLowercase_eq_dot.2 rfl]
  · rintro ⟨t, ht⟩
    obtain ⟨stem, rest, rfl, -, hrest⟩ := List.map_eq_append_iff.1 ht.symm
    obtain ⟨b, suffix, rfl, hb, hs⟩ := List.map_eq_cons_iff.1 hrest
    rw [toAsciiLowercase_eq_dot.1 hb]
    exact ⟨stem, suffix, rfl, hs⟩

/-! ### Bounds -/

/-- Subtraction of `usize`, with underflow as `none`. -/
def checkedSub (a b : ℕ) : Option ℕ := if b ≤ a then some (a - b) else none

/-- `&s[i..]`, with an index behind the end as `none`. -/
def sliceFrom (s : Bytes) (i : ℕ) : Option Bytes := if i ≤ s.length then some (s.drop i) else none

/-- `name_matches_extension` with every subtraction, index and slice checked. -/
def nameMatchesExtension? (name ext : Bytes) : Option Bool :=
  if name.length ≤ ext.length then some false
  else do
    let dotIdx ← (checkedSub name.length ext.length).bind fun d => checkedSub d 1
    let dot ← name[dotIdx]?
    if dot ≠ byte '.' then some false
    else
      let suffix ← sliceFrom name (dotIdx + 1)
      some ((suffix.zip ext).all fun ab => toAsciiLowercase ab.1 == ab.2)

/-- **Every access is within bounds.** -/
theorem nameMatchesExtension?_eq (name ext : Bytes) :
    nameMatchesExtension? name ext = some (nameMatchesExtension name ext) := by
  unfold nameMatchesExtension? nameMatchesExtension
  split_ifs with hlen
  · rfl
  · have hsub : (checkedSub name.length ext.length).bind (fun d => checkedSub d 1) =
        some (name.length - ext.length - 1) := by
      rw [checkedSub, if_pos (by omega), Option.bind_some, checkedSub, if_pos (by omega)]
    have hidx : name.length - ext.length - 1 < name.length := by omega
    have hslice : sliceFrom name (name.length - ext.length - 1 + 1) =
        some (name.drop (name.length - ext.length - 1 + 1)) := if_pos hidx
    simp only [hsub, List.getElem?_eq_getElem hidx, hslice, Option.bind_eq_bind, Option.bind_some,
      ne_eq, Option.some.injEq]
    split_ifs <;> rfl

end Pfind
