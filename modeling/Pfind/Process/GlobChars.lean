import Pfind.Glob.Gaps
import Pfind.Process.GlobMatch
import Pfind.Text.Utf8

/-!
# Characters and bytes in `glob_match`

Patterns and names are texts, of which `glob_match` sees the UTF-8 encoding.  A `?` is documented to
take one character, and takes one byte.

* `globMatch_iff_divides`, `globCharSpec_iff` : the language of the code and the documented one are
  the same up to how the length of a string in a gap is measured.  That runs of bytes end where
  characters end is a fact about UTF-8, and not about the matcher.
* `globMatch_ascii` : on ASCII names the answer is the documented one.
* `globMatch_chars_iff` : **the answer is the documented one for all names if and only if no `?` of
  the pattern counts characters**: each is the only one among the wildcards around it, and a star is
  one of them.
* `not_globMatch_chars` : the pattern `?` does not accept the name `é`.
-/

namespace Pfind

open Glob Text

/-! ### Specification -/

/-- The token that a character of a pattern stands for. -/
def charTok (c : Char) : Tok Char := if c = '*' then .star else if c = '?' then .any else .lit c

/-- The documented language on texts: `*` any run of characters, `?` exactly one character, other
characters themselves. -/
def GlobCharSpec (pat name : String) : Prop := Matches Free (pat.toList.map charTok) name.toList

/-- The literal characters of a pattern and the gaps around them. -/
def charGaps (pat : String) : Gap × List (Char × Gap) := gaps (pat.toList.map charTok)

/-- The number of bytes that encode a text. -/
def byteLength (f : List Char) : ℕ := (encode f).length

/-- The name is the literal characters of the pattern, with strings in the gaps, the length of
which is measured by `size`. -/
def GlobDivides (size : List Char → ℕ) (pat name : String) : Prop :=
  Divides (fun c => [c]) size (charGaps pat) name.toList

/-- The gap asks for nothing, for anything, or for something, but it does not count. -/
def Uncounted (g : Gap) : Prop := g.width = 0 ∨ g.width = 1 ∧ g.star = true

instance (g : Gap) : Decidable (Uncounted g) := inferInstanceAs (Decidable (_ ∨ _))

/-! ### Encoded patterns -/

theorem charTok_eq_lit {c d : Char} (h : charTok c = .lit d) : c = d ∧ d ≠ '*' ∧ d ≠ '?' := by
  unfold charTok at h
  split_ifs at h with hstar hany
  cases h
  exact ⟨rfl, hstar, hany⟩

theorem map_tok_encodeChar {c : Char} (hstar : c ≠ '*') (hany : c ≠ '?') :
    (String.utf8EncodeChar c).map tok = (String.utf8EncodeChar c).map .lit := by
  refine List.map_congr_left fun b hb => ?_
  have hb' : b ∈ encode [c] := by simpa using hb
  have hne : ∀ a : Char, IsAscii a → c ≠ a → b ≠ byte a := by
    rintro a ha hca rfl
    exact hca (List.mem_singleton.1 ((mem_encode_iff ha).1 hb')).symm
  rw [tok, if_neg (hne '*' (by decide) hstar), if_neg (hne '?' (by decide) hany)]

theorem toks_encode (p : List Char) :
    toks (encode p) = expand String.utf8EncodeChar (p.map charTok) := by
  induction p with
  | nil => rfl
  | cons c p ih =>
    have hchar : (String.utf8EncodeChar c).map tok =
        expand String.utf8EncodeChar [charTok c] := by
      unfold charTok
      split_ifs with hstar hany
      · subst hstar; rfl
      · subst hany; rfl
      · rw [map_tok_encodeChar hstar hany]
        exact (List.append_nil _).symm
    rw [encode_cons, toks, List.map_append, hchar, List.map_cons,
      expand_cons _ (p.map charTok), ← ih, toks]

/-! ### Divisions of encoded names -/

variable {g : Gap} {r : List (Char × Gap)} {x : Gap × List (Char × Gap)} {s : List Char}
  {pat name : String}

theorem exists_split_of_behind {f t : Bytes} (h : encode s = f ++ t)
    (ht : Behind String.utf8EncodeChar List.length r t) :
    ∃ s₁ s₂, s = s₁ ++ s₂ ∧ f = encode s₁ ∧ t = encode s₂ := by
  refine exists_split h fun b hb => ?_
  cases r with
  | nil =>
    rw [show t = [] from ht] at hb
    cases hb
  | cons y r =>
    obtain ⟨f', t', rfl, -, -⟩ := ht
    obtain ⟨b', bs, hc, hfirst, -⟩ := exists_encodeChar y.1
    rw [hc] at hb
    cases hb
    exact hfirst

/-- Literals are found only where characters begin. -/
theorem behind_encode_iff : Behind String.utf8EncodeChar List.length r (encode s) ↔
    Behind (fun c => [c]) byteLength r s := by
  induction r generalizing s with
  | nil => exact ⟨fun h => encode_injective h, fun h => congrArg encode h⟩
  | cons y r ih =>
    constructor
    · rintro ⟨f, t, hs, hf, ht⟩
      cases s with
      | nil => simp at hs
      | cons c s =>
        obtain ⟨rfl, hrest⟩ := encodeChar_append_inj hs
        obtain ⟨s₁, s₂, rfl, rfl, rfl⟩ := exists_split_of_behind hrest ht
        exact ⟨s₁, s₂, rfl, hf, ih.1 ht⟩
    · rintro ⟨s₁, s₂, rfl, hf, ht⟩
      exact ⟨encode s₁, encode s₂, by simp, hf, ih.2 ht⟩

theorem divides_encode_iff : Divides String.utf8EncodeChar List.length x (encode s) ↔
    Divides (fun c => [c]) byteLength x s := by
  constructor
  · rintro ⟨f, t, hs, hf, ht⟩
    obtain ⟨s₁, s₂, rfl, rfl, rfl⟩ := exists_split_of_behind hs ht
    exact ⟨s₁, s₂, rfl, hf, behind_encode_iff.1 ht⟩
  · rintro ⟨s₁, s₂, rfl, hf, ht⟩
    exact ⟨encode s₁, encode s₂, encode_append s₁ s₂, hf, behind_encode_iff.2 ht⟩

/-- **What `glob_match` decides about texts** : the wildcards count bytes. -/
theorem globMatch_iff_divides (hname : '*' ∉ name.toList) :
    globMatch (asBytes pat) (asBytes name) = true ↔ GlobDivides byteLength pat name := by
  have hmem : byte '*' ∉ asBytes name := fun h =>
    hname ((mem_encode_iff (by decide)).1 h)
  have hspec : GlobSpec (asBytes pat) (asBytes name) ↔ Matches Free
      (expand String.utf8EncodeChar (pat.toList.map charTok)) (encode name.toList) := by
    rw [← toks_encode]
    rfl
  rw [globMatch_of_not_mem hmem, hspec, matches_expand_iff]
  exact divides_encode_iff

theorem globCharSpec_iff : GlobCharSpec pat name ↔ GlobDivides List.length pat name := by
  rw [GlobCharSpec, ← expand_singleton (pat.toList.map charTok), matches_expand_iff]
  rfl

/-! ### Gaps that count -/

theorem length_le_byteLength (f : List Char) : f.length ≤ byteLength f := by
  induction f with
  | nil => exact Nat.le_refl _
  | cons c f ih =>
    have hc : 0 < (String.utf8EncodeChar c).length :=
      List.length_pos_iff.2 String.utf8EncodeChar_ne_nil
    rw [byteLength, encode_cons, List.length_append, List.length_cons]
    rw [byteLength] at ih
    omega

theorem byteLength_eq_zero_iff {f : List Char} : byteLength f = 0 ↔ f.length = 0 := by
  constructor
  · intro h
    have := length_le_byteLength f
    omega
  · intro h
    rw [List.length_eq_zero_iff.1 h]
    rfl

theorem Uncounted.fits_iff (hg : Uncounted g) (f : List Char) :
    g.Fits (byteLength f) ↔ g.Fits f.length := by
  have hzero := byteLength_eq_zero_iff (f := f)
  unfold Gap.Fits
  rcases hg with hw | ⟨hw, hstar⟩
  · rw [hw, hzero]
    simp
  · simp only [hw, hstar, true_and]
    omega

theorem globDivides_iff (hpat : ∀ g ∈ allGaps (charGaps pat), Uncounted g) :
    GlobDivides byteLength pat name ↔ GlobDivides List.length pat name := by
  constructor
  · exact Divides.congr fun g hg f _ => ((hpat g hg).fits_iff f).1
  · exact Divides.congr fun g hg f _ => ((hpat g hg).fits_iff f).2

theorem byteLength_ascii {f : List Char} (hf : ∀ c ∈ f, IsAscii c) : byteLength f = f.length := by
  induction f with
  | nil => rfl
  | cons c f ih =>
    obtain ⟨hc, hf⟩ := List.forall_mem_cons.1 hf
    rw [byteLength, encode_cons, encodeChar_ascii hc, List.length_append, ← byteLength, ih hf,
      List.length_cons, Nat.add_comm]
    rfl

/-- **On ASCII names the answer is the documented one**, for every pattern. -/
theorem globMatch_ascii (hname : ∀ c ∈ name.toList, IsAscii c) (hstar : '*' ∉ name.toList) :
    globMatch (asBytes pat) (asBytes name) = true ↔ GlobCharSpec pat name := by
  have hsize : ∀ f ⊆ name.toList, byteLength f = f.length := fun f hf =>
    byteLength_ascii fun c hc => hname c (hf hc)
  rw [globMatch_iff_divides hstar, globCharSpec_iff]
  constructor
  · exact Divides.congr fun g _ f hf h => hsize f hf ▸ h
  · exact Divides.congr fun g _ f hf h => (hsize f hf).symm ▸ h

/-! ### Names that tell bytes from characters -/

/-- The name with `φ g` in every gap `g` of the pattern. -/
def fillName (φ : Gap → List Char) (pat : String) : String := String.ofList (fill φ (charGaps pat))

/-- As many bytes as there are wildcards, but fewer characters if there are two wildcards. -/
def shortFill (g : Gap) : List Char :=
  if 2 ≤ g.width then 'é' :: List.replicate (g.width - 2) 'a' else List.replicate g.width 'a'

/-- As many characters as there are wildcards, but of two bytes each. -/
def wideFill (g : Gap) : List Char := List.replicate g.width 'é'

theorem byteLength_replicate (n : ℕ) (c : Char) :
    byteLength (List.replicate n c) = n * (String.utf8EncodeChar c).length := by
  induction n with
  | zero => simp [byteLength]
  | succ n ih =>
    rw [byteLength] at ih
    rw [List.replicate_succ, byteLength, encode_cons, List.length_append, ih]
    ring

theorem byteLength_shortFill (g : Gap) : byteLength (shortFill g) = g.width := by
  have ha : (String.utf8EncodeChar 'a').length = 1 := by decide
  have he : (String.utf8EncodeChar 'é').length = 2 := by decide
  unfold shortFill
  split_ifs with hg
  · have htail := byteLength_replicate (g.width - 2) 'a'
    rw [byteLength] at htail
    rw [byteLength, encode_cons, List.length_append, htail, ha, he]
    omega
  · rw [byteLength_replicate, ha, Nat.mul_one]

theorem length_shortFill_le (g : Gap) : (shortFill g).length ≤ g.width :=
  Nat.le_trans (length_le_byteLength _) (byteLength_shortFill g).le

theorem length_shortFill_lt {g : Gap} (hg : 2 ≤ g.width) : (shortFill g).length < g.width := by
  rw [shortFill, if_pos hg, List.length_cons, List.length_replicate]
  omega

theorem not_star_mem_fillName {φ : Gap → List Char} (hφ : ∀ g, '*' ∉ φ g) :
    '*' ∉ (fillName φ pat).toList := by
  rw [fillName, String.toList_ofList]
  intro h
  rcases mem_fill h with ⟨g, hg⟩ | ⟨y, hy, heq⟩
  · exact hφ g hg
  · obtain ⟨c, -, hc⟩ := List.mem_map.1 (mem_of_mem_gaps hy)
    exact (charTok_eq_lit hc).2.1 heq.symm

theorem width_le_one (h : ∀ name : String, '*' ∉ name.toList →
    GlobDivides byteLength pat name → GlobDivides List.length pat name)
    (hg : g ∈ allGaps (charGaps pat)) : g.width ≤ 1 := by
  have hname : '*' ∉ (fillName shortFill pat).toList := by
    refine not_star_mem_fillName fun g => ?_
    unfold shortFill
    split_ifs <;> simp
  have hbytes : GlobDivides byteLength pat (fillName shortFill pat) := by
    rw [GlobDivides, fillName, String.toList_ofList]
    exact divides_fill fun g => Or.inl (byteLength_shortFill g)
  have hchars := h _ hname hbytes
  rw [GlobDivides, fillName, String.toList_ofList] at hchars
  have hfewest : Fewest List.length (fun _ => true) shortFill := by
    intro g f hf
    rw [List.countP_true]
    exact Nat.le_trans (length_shortFill_le g) hf.width_le
  obtain ⟨f, hf, hle⟩ := hchars.rigid hfewest hg
  rw [List.countP_true] at hle
  by_contra hwide
  have := length_shortFill_lt (g := g) (by omega)
  have := hf.width_le
  omega

theorem star_of_width_eq_one (h : ∀ name : String, '*' ∉ name.toList →
    GlobDivides List.length pat name → GlobDivides byteLength pat name)
    (hg : g ∈ allGaps (charGaps pat)) (hw : g.width = 1) : g.star = true := by
  have hname : '*' ∉ (fillName wideFill pat).toList :=
    not_star_mem_fillName fun g => by simp [wideFill]
  have hchars : GlobDivides List.length pat (fillName wideFill pat) := by
    rw [GlobDivides, fillName, String.toList_ofList]
    exact divides_fill fun g => Or.inl (List.length_replicate ..)
  have hbytes := h _ hname hchars
  rw [GlobDivides, fillName, String.toList_ofList] at hbytes
  have hnone : ∀ g, (wideFill g).countP (· != 'é') = 0 := by
    intro g
    simp [wideFill, List.countP_replicate]
  have hfewest : Fewest byteLength (· != 'é') wideFill := by
    intro g f _
    rw [hnone]
    exact Nat.zero_le _
  obtain ⟨f, hf, hle⟩ := hbytes.rigid hfewest hg
  rw [hnone, Nat.le_zero, List.countP_eq_zero] at hle
  -- what stands in the gap is made of characters of two bytes
  have hf2 : byteLength f = f.length * 2 := by
    have heq : f = List.replicate f.length 'é' :=
      List.eq_replicate_iff.2 ⟨rfl, fun c hc => by simpa using hle c hc⟩
    conv_lhs => rw [heq, byteLength_replicate]
    rfl
  rcases hf with hf | ⟨hstar, -⟩
  · omega
  · exact hstar

/-! ### Main theorem -/

/-- **When `glob_match` respects characters.**  It gives the documented answer for a name without
stars if and only if it makes no difference there whether wildcards count bytes or characters.  It
does so for all these names if and only if no gap of the pattern counts. -/
theorem globMatch_chars_iff (pat : String) :
    (∀ name : String, '*' ∉ name.toList →
      ((globMatch (asBytes pat) (asBytes name) = true ↔ GlobCharSpec pat name) ↔
        (GlobDivides byteLength pat name ↔ GlobDivides List.length pat name))) ∧
    ((∀ name : String, '*' ∉ name.toList →
        (globMatch (asBytes pat) (asBytes name) = true ↔ GlobCharSpec pat name)) ↔
      ∀ g ∈ allGaps (charGaps pat), g.width = 0 ∨ g.width = 1 ∧ g.star = true) := by
  have hiff : ∀ name : String, '*' ∉ name.toList →
      ((globMatch (asBytes pat) (asBytes name) = true ↔ GlobCharSpec pat name) ↔
        (GlobDivides byteLength pat name ↔ GlobDivides List.length pat name)) := by
    intro name hname
    rw [globMatch_iff_divides hname, globCharSpec_iff]
  refine ⟨hiff, fun h g hg => ?_, fun h name hname => ?_⟩
  · have hsame : ∀ name : String, '*' ∉ name.toList →
        (GlobDivides byteLength pat name ↔ GlobDivides List.length pat name) :=
      fun name hname => (hiff name hname).1 (h name hname)
    have hle := width_le_one (fun name hname => (hsame name hname).1) hg
    have hstar := star_of_width_eq_one (fun name hname => (hsame name hname).2) hg
    rcases Nat.le_one_iff_eq_zero_or_eq_one.1 hle with hw | hw
    · exact Or.inl hw
    · exact Or.inr ⟨hw, hstar hw⟩
  · exact (hiff name hname).2 (globDivides_iff h)

/-- The pattern `?*.é` and the name `ß.é`. -/
theorem globMatch_chars_sz :
    globMatch (asBytes "?*.é") (asBytes "ß.é") = true ↔ GlobCharSpec "?*.é" "ß.é" :=
  (globMatch_chars_iff "?*.é").2.2 (by decide) "ß.é" (by decide)

/-- **The pattern `?` does not accept the name `é`.** -/
theorem not_globMatch_chars : ¬ ∀ pat name : String, '*' ∉ name.toList →
    (globMatch (asBytes pat) (asBytes name) = true ↔ GlobCharSpec pat name) := by
  intro h
  have hyes : GlobCharSpec "?" "é" := .any .nil
  have hno : globMatch (asBytes "?") (asBytes "é") = false := by decide
  rw [(h "?" "é" (by decide)).2 hyes] at hno
  cases hno

end Pfind
