import Mathlib.Data.List.Basic

/-!
# The UTF-8 encoding of texts

What programs that handle text as bytes rely on, in terms of the encoding of a character in Lean's
own library, `String.utf8EncodeChar`.

* `encodeChar_ascii`, `encodeChar_nonascii` : an ASCII character is one byte, and the bytes of any
  other character are not ASCII.
* `encode_injective` : a text is determined by its encoding.
* `exists_split` : **self-synchronisation**: a first byte in an encoded text is where a character
  begins.
-/

namespace Pfind

namespace Text

/-- The UTF-8 encoding of a text. -/
def encode (s : List Char) : List UInt8 := s.flatMap String.utf8EncodeChar

@[simp] theorem encode_nil : encode [] = [] := rfl

@[simp] theorem encode_cons (c : Char) (s : List Char) :
    encode (c :: s) = String.utf8EncodeChar c ++ encode s := rfl

@[simp] theorem encode_append (s t : List Char) : encode (s ++ t) = encode s ++ encode t :=
  List.flatMap_append

/-- The character is an ASCII character. -/
def IsAscii (c : Char) : Prop := c.val < 128

instance (c : Char) : Decidable (IsAscii c) := inferInstanceAs (Decidable (c.val < 128))

theorem forall_isAscii {P : Char → Prop} (h : ∀ n < 128, P (Char.ofNat n)) {c : Char}
    (hc : IsAscii c) : P c := by
  have hn := h c.toNat (UInt32.lt_iff_toNat_lt.1 hc)
  rwa [Char.ofNat_toNat] at hn

theorem encodeChar_ascii {c : Char} (h : IsAscii c) : String.utf8EncodeChar c = [c.toUInt8] := by
  refine String.utf8EncodeChar_eq_singleton (Char.utf8Size_eq_one_iff.2 ?_)
  rw [IsAscii, UInt32.lt_iff_toNat_lt] at h
  rw [UInt32.le_iff_toNat_le]
  exact Nat.le_of_lt_succ h

theorem encodeChar_nonascii {c : Char} (h : ¬ IsAscii c) :
    ∀ b ∈ String.utf8EncodeChar c, 128 ≤ b := by
  have hc : 127 < c.val.toNat := by
    rw [IsAscii, UInt32.lt_iff_toNat_lt] at h
    exact Nat.le_of_not_lt h
  intro b hb
  rw [UInt8.le_iff_toNat_le]
  unfold String.utf8EncodeChar at hb
  dsimp only at hb
  split_ifs at hb
  · omega
  all_goals
    simp only [List.mem_cons, List.not_mem_nil, or_false] at hb
    rcases hb with rfl | rfl | rfl | rfl <;> simp <;> omega

/-- The bytes of a character: a first byte, and bytes that are none. -/
theorem exists_encodeChar (c : Char) : ∃ b bs, String.utf8EncodeChar c = b :: bs ∧
    b.IsUTF8FirstByte ∧ ∀ x ∈ bs, ¬ x.IsUTF8FirstByte := by
  obtain ⟨b, bs, hc⟩ := List.exists_cons_of_ne_nil (String.utf8EncodeChar_ne_nil (c := c))
  have hfirst : ∀ {i : ℕ} (hi : i < (String.utf8EncodeChar c).length),
      (String.utf8EncodeChar c)[i].IsUTF8FirstByte ↔ i = 0 := fun hi =>
    UInt8.isUTF8FirstByte_getElem_utf8EncodeChar
  refine ⟨b, bs, hc, ?_, fun x hx hf => ?_⟩
  · have hb := (hfirst (i := 0) (by simp [hc])).2 rfl
    simp only [hc] at hb
    exact hb
  · obtain ⟨i, hi, rfl⟩ := List.getElem_of_mem hx
    refine Nat.succ_ne_zero i ((hfirst (by simpa [hc] using hi)).1 ?_)
    simp only [hc]
    exact hf

theorem encodeChar_append_inj {c d : Char} {s t : List UInt8}
    (h : String.utf8EncodeChar c ++ s = String.utf8EncodeChar d ++ t) : c = d ∧ s = t := by
  have hc : ∀ (c : Char) (s : List UInt8),
      ByteArray.utf8DecodeChar? (String.utf8EncodeChar c ++ s).toByteArray 0 = some c := by
    intro c s
    rw [List.toByteArray_append, ByteArray.utf8DecodeChar?_utf8EncodeChar_append]
  have hcd : c = d := Option.some.inj ((hc c s).symm.trans (h ▸ hc d t))
  subst hcd
  exact ⟨rfl, List.append_cancel_left h⟩

theorem encode_injective : Function.Injective encode := by
  intro s t h
  induction s generalizing t with
  | nil =>
    cases t with
    | nil => rfl
    | cons d t => simp at h
  | cons c s ih =>
    cases t with
    | nil => simp at h
    | cons d t =>
      obtain ⟨rfl, hst⟩ := encodeChar_append_inj h
      rw [ih hst]

theorem mem_encode_iff {a : Char} {s : List Char} (ha : IsAscii a) :
    a.toUInt8 ∈ encode s ↔ a ∈ s := by
  rw [encode, List.mem_flatMap]
  constructor
  · rintro ⟨c, hc, hb⟩
    by_cases hascii : IsAscii c
    · have heq : encode [a] = encode [c] := by
        rw [encodeChar_ascii hascii, List.mem_singleton] at hb
        simp [encodeChar_ascii ha, encodeChar_ascii hascii, hb]
      obtain rfl : a = c := List.singleton_inj.1 (encode_injective heq)
      exact hc
    · have hlt : a.toUInt8 < 128 := forall_isAscii (P := fun a => a.toUInt8 < 128) (by decide) ha
      exact absurd hlt (UInt8.not_lt.2 (encodeChar_nonascii hascii _ hb))
  · intro hc
    exact ⟨a, hc, by rw [encodeChar_ascii ha]; exact List.mem_singleton_self _⟩

/-- **A first byte is where a character begins.** -/
theorem exists_split {s : List Char} {x y : List UInt8} (h : encode s = x ++ y)
    (hy : ∀ b ∈ y.head?, b.IsUTF8FirstByte) :
    ∃ s₁ s₂, s = s₁ ++ s₂ ∧ x = encode s₁ ∧ y = encode s₂ := by
  induction s generalizing x with
  | nil =>
    obtain ⟨rfl, rfl⟩ := List.append_eq_nil_iff.1 h.symm
    exact ⟨[], [], rfl, rfl, rfl⟩
  | cons c s ih =>
    rcases List.append_eq_append_iff.1 h with ⟨z, rfl, hz⟩ | ⟨z, hz, rfl⟩
    · obtain ⟨s₁, s₂, rfl, rfl, rfl⟩ := ih hz
      exact ⟨c :: s₁, s₂, rfl, rfl, rfl⟩
    · -- `x` ends inside the encoding of `c`, or at one of its ends
      obtain ⟨b, bs, hc, -, hbs⟩ := exists_encodeChar c
      cases z with
      | nil => exact ⟨[c], s, rfl, by simpa using hz.symm, rfl⟩
      | cons d z =>
        cases x with
        | nil => exact ⟨[], c :: s, rfl, rfl, h.symm⟩
        | cons a x =>
          rw [hc, List.cons_append, List.cons_eq_cons] at hz
          exact absurd (hy d rfl) (hbs d (by rw [hz.2]; simp))

end Text

end Pfind
