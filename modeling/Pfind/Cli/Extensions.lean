import Mathlib.Data.Bool.AllAny
import Pfind.Cli.Basic
import Pfind.Process.Basic
import Pfind.Walker.Basic

/-!
# The extension filter from the command line to the name

The command line lowercases extensions as Unicode texts (`allExtensions`), the matcher lowercases
names as bytes (`nameMatchesExtension`).  The two agree on ASCII.

* `anyExtensionMatches_iff` : **for ASCII extensions, the names accepted are those that end in a dot
  and one of the requested extensions, ignoring ASCII case**, and all accesses are within bounds.
* `extension_accepted_iff` : **an extension spelled as in the name matches if and only if
  lowercasing changes no character of it outside ASCII.**
* `not_extension_accepted` : `-e É` does not find `a.É`.
-/

namespace Pfind

open Text

/-! ### Encoded texts -/

theorem toAsciiLowercase_of_nonascii {b : UInt8} (h : 128 ≤ b) : toAsciiLowercase b = b := by
  unfold toAsciiLowercase
  rw [if_neg]
  rintro ⟨-, hZ⟩
  have h90 : byte 'Z' < 128 := by decide
  exact absurd (UInt8.lt_of_le_of_lt hZ h90) (UInt8.not_lt.2 h)

theorem isAscii_toLower {c : Char} (hc : IsAscii c) : IsAscii c.toLower :=
  forall_isAscii (P := fun c => IsAscii c.toLower) (by decide) hc

theorem map_encodeChar (c : Char) : (String.utf8EncodeChar c).map toAsciiLowercase =
    String.utf8EncodeChar c.toLower := by
  by_cases hc : IsAscii c
  · rw [encodeChar_ascii hc, encodeChar_ascii (isAscii_toLower hc)]
    exact congrArg (fun b => [b]) (forall_isAscii
      (P := fun c => toAsciiLowercase c.toUInt8 = c.toLower.toUInt8) (by decide) hc)
  · rw [CaseData.toLower_of_not_isAscii hc]
    exact map_eq_self fun b hb => toAsciiLowercase_of_nonascii (encodeChar_nonascii hc b hb)

theorem map_encode (s : List Char) :
    (encode s).map toAsciiLowercase = encode (s.map Char.toLower) := by
  induction s with
  | nil => rfl
  | cons c s ih => rw [encode_cons, List.map_append, map_encodeChar, ih, List.map_cons, encode_cons]

theorem count_encodeChar (c : Char) :
    (String.utf8EncodeChar c).count (byte '.') = if c = '.' then 1 else 0 := by
  by_cases hc : IsAscii c
  · rw [encodeChar_ascii hc]
    exact forall_isAscii
      (P := fun c => [c.toUInt8].count (byte '.') = if c = '.' then 1 else 0) (by decide) hc
  · rw [if_neg (by rintro rfl; exact hc (by decide)), List.count_eq_zero]
    intro hmem
    exact absurd (encodeChar_nonascii hc _ hmem) (by decide)

theorem count_encode (s : List Char) : (encode s).count (byte '.') = s.count '.' := by
  induction s with
  | nil => rfl
  | cons c s ih =>
    rw [encode_cons, List.count_append, count_encodeChar, ih, List.count_cons, Nat.add_comm]
    simp

theorem count_map_toAsciiLowercase (s : Bytes) :
    (s.map toAsciiLowercase).count (byte '.') = s.count (byte '.') := by
  induction s with
  | nil => rfl
  | cons b s ih => simp [List.count_cons, ih, toAsciiLowercase_eq_dot]

/-! ### The list of extensions -/

namespace Cli

variable {U : CaseData} {cli : Cli}

/-- The extensions of the preset. -/
def presetExtensions (cli : Cli) : List String := cli.fileType.elim [] FileType.extensions

/-- The extensions asked for: those given, without leading dots, and those of the preset. -/
def requested (cli : Cli) : List String := cli.ext.map trimDots ++ cli.presetExtensions

theorem mem_allExtensions {x : String} : x ∈ cli.allExtensions U ↔
    (∃ e ∈ cli.ext, x = String.ofList (U.toLowercase (trimDots e).toList)) ∨
      x ∈ cli.presetExtensions := by
  unfold allExtensions presetExtensions
  cases cli.fileType with
  | none => simp [eq_comm]
  | some ft => simp [mem_foldl_pushNew, eq_comm]

theorem FileType.extensions_ascii (ft : FileType) :
    ∀ x ∈ ft.extensions, ∀ c ∈ x.toList, IsAscii c ∧ c.toLower = c := by
  have hall : (ft.extensions.all fun x => x.toList.all fun c => IsAscii c ∧ c.toLower = c) =
      true := by
    cases ft <;> decide
  intro x hx
  exact List.all_iff_forall_prop.1 (List.all_eq_true.1 hall x hx)

theorem presetExtensions_ascii {x : String} (hx : x ∈ cli.presetExtensions) :
    ∀ c ∈ x.toList, IsAscii c ∧ c.toLower = c := by
  unfold presetExtensions at hx
  cases hft : cli.fileType with
  | none => simp [hft] at hx
  | some ft => exact ft.extensions_ascii x (by simpa [hft] using hx)

theorem mem_trimDots {e : String} {c : Char} (hc : c ∈ (trimDots e).toList) : c ∈ e.toList := by
  rw [trimDots, String.toList_ofList] at hc
  exact (List.dropWhile_suffix _).subset hc

theorem exists_mem_allExtensions_iff (hext : ∀ e ∈ cli.ext, ∀ c ∈ e.toList, IsAscii c)
    {P : Bytes → Prop} : (∃ x ∈ cli.allExtensions U, P (asBytes x)) ↔
      ∃ x ∈ cli.requested, P ((asBytes x).map toAsciiLowercase) := by
  have hgiven : ∀ e ∈ cli.ext, asBytes (String.ofList (U.toLowercase (trimDots e).toList)) =
      (asBytes (trimDots e)).map toAsciiLowercase := by
    intro e he
    show encode _ = (encode _).map toAsciiLowercase
    rw [String.toList_ofList, map_encode,
      CaseData.toLowercase_ascii fun c hc => hext e he c (mem_trimDots hc)]
  have hpreset : ∀ x ∈ cli.presetExtensions, (asBytes x).map toAsciiLowercase = asBytes x := by
    intro x hx
    show (encode _).map toAsciiLowercase = encode _
    rw [map_encode]
    exact congrArg encode (map_eq_self fun c hc => (presetExtensions_ascii hx c hc).2)
  constructor
  · rintro ⟨x, hx, hp⟩
    rcases mem_allExtensions.1 hx with ⟨e, he, rfl⟩ | hx
    · exact ⟨trimDots e, List.mem_append_left _ (List.mem_map_of_mem he), hgiven e he ▸ hp⟩
    · exact ⟨x, List.mem_append_right _ hx, (hpreset x hx).symm ▸ hp⟩
  · rintro ⟨x, hx, hp⟩
    rcases List.mem_append.1 hx with hx | hx
    · obtain ⟨e, he, rfl⟩ := List.mem_map.1 hx
      exact ⟨_, mem_allExtensions.2 (Or.inl ⟨e, he, rfl⟩), (hgiven e he).symm ▸ hp⟩
    · exact ⟨x, mem_allExtensions.2 (Or.inr hx), hpreset x hx ▸ hp⟩

/-! ### The filter -/

theorem anyExtensionMatches_iff_exists {name : Bytes} {exts : List String} :
    anyExtensionMatches name exts = true ↔
      ∃ x ∈ exts, byte '.' :: asBytes x <:+ name.map toAsciiLowercase := by
  simp only [anyExtensionMatches, List.any_eq_true, nameMatchesExtension_iff_suffix]

/-- **The extension filter accepts exactly the names with one of the requested extensions**,
ignoring ASCII case, and accesses the name within its bounds only. -/
theorem anyExtensionMatches_iff (U : CaseData) (cli : Cli) (name : Bytes)
    (hext : ∀ e ∈ cli.ext, ∀ c ∈ e.toList, IsAscii c) :
    (anyExtensionMatches name (cli.allExtensions U) = true ↔
      ∃ x ∈ cli.requested,
        byte '.' :: (asBytes x).map toAsciiLowercase <:+ name.map toAsciiLowercase) ∧
    ∀ x ∈ cli.allExtensions U,
      nameMatchesExtension? name (asBytes x) = some (nameMatchesExtension name (asBytes x)) := by
  refine ⟨?_, fun x _ => nameMatchesExtension?_eq name (asBytes x)⟩
  rw [anyExtensionMatches_iff_exists]
  exact exists_mem_allExtensions_iff (P := fun x => byte '.' :: x <:+ name.map toAsciiLowercase)
    hext

/-- A command line with one extension. -/
def ofExt (e : String) : Cli :=
  ⟨[byte '.'], none, [e], none, none, [], false, false, false, false, false, none⟩

/-- `-e ..Tar.GZ` accepts `.tar.Gz`. -/
theorem anyExtensionMatches_tar_gz :
    anyExtensionMatches (asBytes ".tar.Gz") ((ofExt "..Tar.GZ").allExtensions .latin1) = true := by
  refine ((anyExtensionMatches_iff .latin1 (ofExt "..Tar.GZ") (asBytes ".tar.Gz") ?_).1).2 ?_
  · intro e he
    obtain rfl := List.mem_singleton.1 he
    exact List.all_iff_forall_prop.1 (by decide)
  · exact ⟨"Tar.GZ", by decide, [], by decide⟩

/-! ### Extensions outside ASCII -/

theorem lowercase_of_accepted {e : String}
    (h : byte '.' :: encode (U.toLowercase (trimDots e).toList) <:+
      (byte '.' :: asBytes (trimDots e)).map toAsciiLowercase) :
    U.toLowercase (trimDots e).toList = (trimDots e).toList.map Char.toLower := by
  have hmap : (byte '.' :: asBytes (trimDots e)).map toAsciiLowercase =
      byte '.' :: encode ((trimDots e).toList.map Char.toLower) := by
    rw [List.map_cons, toAsciiLowercase_eq_dot.2 rfl]
    exact congrArg _ (map_encode _)
  rw [hmap] at h
  obtain ⟨t, ht⟩ := h
  cases t with
  | nil => exact encode_injective (List.cons_eq_cons.1 ht).2
  | cons b t =>
    -- the dot would be one of the extension, which has no more dots than its lowercase form
    rw [List.cons_append, List.cons_eq_cons] at ht
    have hcount := congrArg (List.count (byte '.')) ht.2
    have hle : (trimDots e).toList.count '.' ≤ _ :=
      CaseData.count_le_toLowercase (U := U) (by decide) (by decide) _
    rw [List.count_append, List.count_cons_self, count_encode, ← map_encode,
      count_map_toAsciiLowercase, count_encode] at hcount
    omega

/-- **An extension spelled as in the file name matches** if and only if lowercasing changes no
character of it outside ASCII. -/
theorem extension_accepted_iff (U : CaseData) (e : String) :
    (∀ (cli : Cli) (stem : Bytes), e ∈ cli.ext →
      anyExtensionMatches (stem ++ byte '.' :: asBytes (trimDots e)) (cli.allExtensions U) = true) ↔
    ∀ c ∈ (trimDots e).toList, ¬ IsAscii c → U.toLower c = [c] := by
  rw [← CaseData.toLowercase_eq_map_iff]
  constructor
  · intro h
    have hone := h (ofExt e) [] (List.mem_singleton_self e)
    obtain ⟨x, hx, hsuf⟩ := anyExtensionMatches_iff_exists.1 hone
    obtain rfl : x = String.ofList (U.toLowercase (trimDots e).toList) := by
      simpa [mem_allExtensions, ofExt, presetExtensions] using hx
    refine lowercase_of_accepted ?_
    simpa [asBytes, encode] using hsuf
  · intro h cli stem he
    have hx : asBytes (String.ofList (U.toLowercase (trimDots e).toList)) =
        (asBytes (trimDots e)).map toAsciiLowercase := by
      show encode _ = (encode _).map toAsciiLowercase
      rw [String.toList_ofList, h, map_encode]
    rw [anyExtensionMatches_iff_exists]
    refine ⟨_, mem_allExtensions.2 (Or.inl ⟨e, he, rfl⟩), stem.map toAsciiLowercase, ?_⟩
    rw [hx, List.map_append, List.map_cons, toAsciiLowercase_eq_dot.2 rfl]

/-- **`-e É` does not find `a.É`.** -/
theorem not_extension_accepted :
    ¬ ∀ (cli : Cli) (e : String) (stem : Bytes), e ∈ cli.ext →
      anyExtensionMatches (stem ++ byte '.' :: asBytes (trimDots e))
        (cli.allExtensions .latin1) = true := by
  intro h
  have hone := h (ofExt "É") "É" (asBytes "a") (List.mem_singleton_self _)
  revert hone
  decide

end Cli

end Pfind
