import Mathlib.Data.Bool.AllAny
import Pfind.Cli.Basic

/-!
# Sizes

`parse_size` chooses the multiplier by `ends_with`, and takes the unit off by `trim_end_matches`,
which takes off more than one.

* `UnitRun` : what is taken off the end of a text: units of one letter, any number of them.
* `splitUnit_append`, `exists_splitUnit` : **`splitUnit` takes off a run of units, and all of it**.
* `parseSize_sound_iff` : **what is accepted is a number and at most one unit, unless the unit is
  repeated**; `not_parseSize_sound` : `1GG` is accepted.
* `parseSize_exact` : **integers are read exactly**, with every unit, in any letter case, with white
  space in every place where it is allowed.
-/

namespace Pfind

open Text

namespace Cli

/-! ### Units -/

/-- The letters that units are made of. -/
def IsUnitLetter (c : Char) : Prop := c ∈ ['B', 'K', 'M', 'G']

instance (c : Char) : Decidable (IsUnitLetter c) := inferInstanceAs (Decidable (c ∈ _))

/-- The units in uppercase, with their multipliers. -/
def units : List (List Char × UInt64) :=
  [([], 1), (['B'], 1), (['K'], 1024), (['K', 'B'], 1024), (['M'], 1024 * 1024),
    (['M', 'B'], 1024 * 1024), (['G'], 1024 * 1024 * 1024), (['G', 'B'], 1024 * 1024 * 1024)]

/-- The letters with a multiplier of their own. -/
inductive Magnitude where
  /-- `K`. -/
  | kilo
  /-- `M`. -/
  | mega
  /-- `G`. -/
  | giga

/-- The letter of a magnitude. -/
def Magnitude.letter : Magnitude → Char
  | .kilo => 'K'
  | .mega => 'M'
  | .giga => 'G'

/-- Its multiplier. -/
def Magnitude.factor : Magnitude → UInt64
  | .kilo => 1024
  | .mega => 1024 * 1024
  | .giga => 1024 * 1024 * 1024

/-- Units in a row, all of the same letter. -/
inductive UnitRun where
  /-- `B` as often as given. -/
  | bytes (b : ℕ)
  /-- The letter of `m`, `a` times, and then the letter and `B`, `b` times. -/
  | scaled (m : Magnitude) (a b : ℕ) (h : 0 < a + b)

namespace UnitRun

/-- The units of the run. -/
def text : UnitRun → List Char
  | bytes b => power ['B'] b
  | scaled m a b _ => power [m.letter] a ++ power [m.letter, 'B'] b

/-- The multiplier of each of them. -/
def mult : UnitRun → UInt64
  | bytes _ => 1
  | scaled m _ _ _ => m.factor

/-- How many units there are. -/
def count : UnitRun → ℕ
  | bytes b => b
  | scaled _ a b _ => a + b

end UnitRun

theorem mem_units_iff {u : List Char} {m : UInt64} :
    (u, m) ∈ units ↔ ∃ r : UnitRun, r.count ≤ 1 ∧ r.text = u ∧ r.mult = m := by
  constructor
  · intro h
    simp only [units, List.mem_cons, Prod.mk.injEq, List.not_mem_nil, or_false] at h
    rcases h with ⟨rfl, rfl⟩ | ⟨rfl, rfl⟩ | ⟨rfl, rfl⟩ | ⟨rfl, rfl⟩ | ⟨rfl, rfl⟩ | ⟨rfl, rfl⟩ |
      ⟨rfl, rfl⟩ | ⟨rfl, rfl⟩
    · exact ⟨.bytes 0, by decide, rfl, rfl⟩
    · exact ⟨.bytes 1, by decide, rfl, rfl⟩
    · exact ⟨.scaled .kilo 1 0 (by decide), by decide, rfl, rfl⟩
    · exact ⟨.scaled .kilo 0 1 (by decide), by decide, rfl, rfl⟩
    · exact ⟨.scaled .mega 1 0 (by decide), by decide, rfl, rfl⟩
    · exact ⟨.scaled .mega 0 1 (by decide), by decide, rfl, rfl⟩
    · exact ⟨.scaled .giga 1 0 (by decide), by decide, rfl, rfl⟩
    · exact ⟨.scaled .giga 0 1 (by decide), by decide, rfl, rfl⟩
  · rintro ⟨r, hr, rfl, rfl⟩
    cases r with
    | bytes b =>
      have hb : b = 0 ∨ b = 1 := by simp only [UnitRun.count] at hr; omega
      rcases hb with rfl | rfl <;> decide
    | scaled m a b h =>
      have hab : a = 0 ∧ b = 1 ∨ a = 1 ∧ b = 0 := by simp only [UnitRun.count] at hr; omega
      rcases hab with ⟨rfl, rfl⟩ | ⟨rfl, rfl⟩ <;> cases m <;> decide +revert

/-! ### Taking off the unit -/

/-- The test that the source makes for a letter. -/
def endsIn (c : Char) (s : List Char) : Bool := [c].isSuffixOf s || [c, 'B'].isSuffixOf s

theorem endsIn_iff {c : Char} {s : List Char} :
    endsIn c s = true ↔ [c] <:+ s ∨ [c, 'B'] <:+ s := by
  simp [endsIn]

/-- The number without its unit. -/
def Plain (s : List Char) : Prop := Ends (fun c => ¬ IsUnitLetter c) s

theorem isUnitLetter_letter (m : Magnitude) : IsUnitLetter m.letter := by
  cases m <;> decide

theorem letter_ne (m : Magnitude) : m.letter ≠ 'B' := by
  cases m <;> decide

theorem letter_injective {m m' : Magnitude} (h : m.letter = m'.letter) : m = m' := by
  cases m <;> cases m' <;> first | rfl | exact absurd h (by decide)

theorem Plain.not_endsIn {s : List Char} (hs : Plain s) (m : Magnitude) :
    endsIn m.letter s = false := by
  rw [← Bool.not_eq_true, endsIn_iff]
  rintro (h | h)
  · exact hs.not_suffix (not_not.2 (isUnitLetter_letter m)) h
  · have hB : ['B'] <:+ s := (List.suffix_cons _ _).trans h
    exact hs.not_suffix (not_not.2 (by decide)) hB

theorem endsIn_concat {m : Magnitude} {s : List Char} {c : Char} :
    endsIn m.letter (s ++ [c]) = true ↔ m.letter = c ∨ [m.letter] <:+ s ∧ 'B' = c := by
  rw [endsIn_iff, singleton_suffix_iff, ← List.singleton_append (x := m.letter) (l := ['B']),
    append_singleton_suffix_iff]

theorem not_endsIn_bytes {num : List Char} (hnum : Plain num) (m : Magnitude) (b : ℕ) :
    ¬ endsIn m.letter (num ++ power ['B'] b) = true := by
  have hnot : ∀ b, ¬ [m.letter] <:+ num ++ power ['B'] b := by
    intro b
    cases b with
    | zero =>
      rw [power_zero, List.append_nil]
      exact hnum.not_suffix (not_not.2 (isUnitLetter_letter m))
    | succ b =>
      rw [power_succ, ← List.append_assoc, singleton_suffix_iff]
      exact letter_ne m
  cases b with
  | zero => simp [hnum.not_endsIn]
  | succ b =>
    rw [power_succ, ← List.append_assoc, endsIn_concat]
    rintro (h | ⟨h, -⟩)
    · exact letter_ne m h
    · exact hnot b h

theorem endsIn_scaled_iff (num : List Char) (m m' : Magnitude) (a b : ℕ) (h : 0 < a + b) :
    endsIn m.letter (num ++ (UnitRun.scaled m' a b h).text) = true ↔ m.letter = m'.letter := by
  cases b with
  | zero =>
    obtain ⟨a, rfl⟩ : ∃ k, a = k + 1 := ⟨a - 1, by omega⟩
    rw [UnitRun.text, power_zero, List.append_nil, power_succ, ← List.append_assoc, endsIn_concat]
    simp [(letter_ne m').symm]
  | succ b =>
    rw [UnitRun.text, power_succ, ← List.append_assoc, ← List.append_assoc,
      ← List.singleton_append (x := m'.letter) (l := ['B']), ← List.append_assoc, endsIn_concat,
      singleton_suffix_iff]
    simp [letter_ne m]

/-- **Which letter the test finds behind a number.** -/
theorem endsIn_append_iff {num : List Char} (hnum : Plain num) (m : Magnitude) (r : UnitRun) :
    endsIn m.letter (num ++ r.text) = true ↔ ∃ a b h, r = .scaled m a b h := by
  cases r with
  | bytes b =>
    refine iff_of_false (not_endsIn_bytes hnum m b) ?_
    rintro ⟨a', b', h', heq⟩
    cases heq
  | scaled m' a b h =>
    rw [endsIn_scaled_iff]
    constructor
    · intro heq
      obtain rfl := letter_injective heq
      exact ⟨a, b, h, rfl⟩
    · rintro ⟨a', b', h', heq⟩
      cases heq
      rfl

/-- What the source does when the test finds a letter: both forms of the unit are taken off. -/
def trimUnit (c : Char) (s : List Char) : List Char :=
  trimEndMatches [c] (trimEndMatches [c, 'B'] s)

theorem trimUnit_append {num : List Char} (hnum : Plain num) (m : Magnitude) (a b : ℕ)
    (h : 0 < a + b) : trimUnit m.letter (num ++ (UnitRun.scaled m a b h).text) = num := by
  have hl : ¬ [m.letter] <:+ num := hnum.not_suffix (not_not.2 (isUnitLetter_letter m))
  have hlB : ¬ [m.letter, 'B'] <:+ num ++ power [m.letter] a := by
    intro hsuf
    have hB : ['B'] <:+ num ++ power [m.letter] a := (List.suffix_cons _ _).trans hsuf
    cases a with
    | zero =>
      rw [power_zero, List.append_nil] at hB
      exact hnum.not_suffix (not_not.2 (by decide)) hB
    | succ a =>
      rw [power_succ, ← List.append_assoc, singleton_suffix_iff] at hB
      exact letter_ne m hB.symm
  rw [trimUnit, UnitRun.text, ← List.append_assoc, trimEndMatches_append (by simp) hlB,
    trimEndMatches_append (by simp) hl]

theorem exists_trimUnit {m : Magnitude} {s : List Char} (hs : endsIn m.letter s = true) :
    ∃ a b h, s = trimUnit m.letter s ++ (UnitRun.scaled m a b h).text := by
  obtain ⟨b, hb⟩ := eq_trimEndMatches_append (w := [m.letter, 'B']) (by simp) s
  obtain ⟨a, ha⟩ := eq_trimEndMatches_append (w := [m.letter]) (by simp)
    (trimEndMatches [m.letter, 'B'] s)
  have hab : 0 < a + b := by
    by_contra hzero
    obtain ⟨rfl, rfl⟩ : a = 0 ∧ b = 0 := by omega
    rw [power_zero, List.append_nil] at ha hb
    rcases endsIn_iff.1 hs with h | h
    · rw [hb, ha] at h
      exact not_suffix_trimEndMatches (by simp) _ h
    · rw [hb] at h
      exact not_suffix_trimEndMatches (by simp) _ h
  refine ⟨a, b, hab, ?_⟩
  rw [UnitRun.text, ← List.append_assoc, trimUnit, ← ha, ← hb]

theorem splitUnit_eq (s : List Char) : splitUnit s =
    if endsIn Magnitude.giga.letter s then (trimUnit 'G' s, Magnitude.giga.factor)
    else if endsIn Magnitude.mega.letter s then (trimUnit 'M' s, Magnitude.mega.factor)
    else if endsIn Magnitude.kilo.letter s then (trimUnit 'K' s, Magnitude.kilo.factor)
    else if ['B'].isSuffixOf s then (trimEndMatches ['B'] s, 1)
    else (s, 1) := rfl

/-- **A run of units behind a number is taken off.** -/
theorem splitUnit_append {num : List Char} (hnum : Plain num) (r : UnitRun) :
    splitUnit (num ++ r.text) = (num, r.mult) := by
  have hno : ∀ m, (∀ a b h, r ≠ .scaled m a b h) → ¬ endsIn m.letter (num ++ r.text) = true := by
    intro m hm hends
    obtain ⟨a, b, h, hr⟩ := (endsIn_append_iff hnum m r).1 hends
    exact hm a b h hr
  rw [splitUnit_eq]
  cases r with
  | bytes b =>
    rw [if_neg (hno .giga (by simp)), if_neg (hno .mega (by simp)), if_neg (hno .kilo (by simp))]
    split_ifs with hB
    · rw [UnitRun.text, trimEndMatches_append (by simp) (hnum.not_suffix (by decide))]
      rfl
    · cases b with
      | zero => rw [UnitRun.text, power_zero, List.append_nil]; rfl
      | succ b =>
        refine absurd (List.isSuffixOf_iff_suffix.2 ?_) hB
        rw [UnitRun.text, power_succ, ← List.append_assoc]
        exact List.suffix_append _ _
  | scaled m a b h =>
    have hyes := (endsIn_append_iff hnum m (.scaled m a b h)).2 ⟨a, b, h, rfl⟩
    have htrim := trimUnit_append hnum m a b h
    cases m with
    | giga =>
      rw [if_pos hyes]
      exact Prod.ext htrim rfl
    | mega =>
      rw [if_neg (hno .giga (by simp)), if_pos hyes]
      exact Prod.ext htrim rfl
    | kilo =>
      rw [if_neg (hno .giga (by simp)), if_neg (hno .mega (by simp)), if_pos hyes]
      exact Prod.ext htrim rfl

/-- **Nothing else is taken off.** -/
theorem exists_splitUnit (s : List Char) :
    ∃ r : UnitRun, s = (splitUnit s).1 ++ r.text ∧ (splitUnit s).2 = r.mult := by
  rw [splitUnit_eq]
  split_ifs with hG hM hK hB
  · obtain ⟨a, b, h, hs⟩ := exists_trimUnit hG
    exact ⟨_, hs, rfl⟩
  · obtain ⟨a, b, h, hs⟩ := exists_trimUnit hM
    exact ⟨_, hs, rfl⟩
  · obtain ⟨a, b, h, hs⟩ := exists_trimUnit hK
    exact ⟨_, hs, rfl⟩
  · obtain ⟨b, hs⟩ := eq_trimEndMatches_append (w := ['B']) (by simp) s
    exact ⟨.bytes b, hs, rfl⟩
  · exact ⟨.bytes 0, (List.append_nil s).symm, rfl⟩

/-! ### What is accepted -/

/-- The text that is taken apart: trimmed, and in uppercase. -/
def sizeText (U : CaseData) (s : String) : List Char :=
  U.toUppercase (trim isWhitespace s.toList)

/-- The text does not end in the letter of a unit or in white space. -/
def Numeral (x : List Char) : Prop := Ends (fun c => ¬ IsUnitLetter c ∧ isWhitespace c = false) x

/-- The number parser accepts no text that ends in the letter of a unit or in white space. -/
def F64.Strict (F : F64) : Prop :=
  ∀ x n, F.fromStr x = some n → Numeral x

/-- The text is a number, optional white space and at most one unit, and the size is the number
times the multiplier of the unit. -/
def DenotesSize (F : F64) (t : List Char) (v : UInt64) : Prop :=
  ∃ x n ws u m, t = x ++ ws ++ u ∧ F.fromStr x = some n ∧ (∀ c ∈ ws, isWhitespace c = true) ∧
    (u, m) ∈ units ∧ v = F.toU64 (F.mul n (F.ofU64 m))

/-- The text is a number, optional white space and the units of `r`. -/
def NumberThen (F : F64) (t : List Char) (n : F.Num) (r : UnitRun) : Prop :=
  ∃ x ws, t = x ++ ws ++ r.text ∧ F.fromStr x = some n ∧ ∀ c ∈ ws, isWhitespace c = true

/-- The text is a number, optional white space and two or more units of the same letter. -/
def RepeatedUnit (F : F64) (t : List Char) : Prop :=
  ∃ n r, NumberThen F t n r ∧ 2 ≤ r.count

variable {U : CaseData} {F : F64} {s : String} {t : List Char}

theorem bare_sizeText : Bare isWhitespace (sizeText U s) :=
  CaseData.bare_toUppercase (bare_trim s.toList)

theorem not_isUnitLetter_of_isWhitespace {c : Char} (h : isWhitespace c = true) :
    ¬ IsUnitLetter c := by
  intro hc
  simp only [IsUnitLetter, List.mem_cons, List.not_mem_nil, or_false] at hc
  rcases hc with rfl | rfl | rfl | rfl <;> exact absurd h (by decide)

theorem parseSize_eq : parseSize U F s =
    (F.fromStr (trim isWhitespace (splitUnit (sizeText U s)).1)).elim
      (.error ("Invalid size: " ++ String.ofList (sizeText U s)))
      fun n => .ok (F.toU64 (F.mul n (F.ofU64 (splitUnit (sizeText U s)).2))) := by
  unfold parseSize sizeText
  dsimp only
  cases F.fromStr _ <;> rfl

theorem numberThen_of_parseSize {v : UInt64} (h : parseSize U F s = .ok v) :
    ∃ n r, NumberThen F (sizeText U s) n r ∧ v = F.toU64 (F.mul n (F.ofU64 r.mult)) := by
  obtain ⟨r, hr, hmult⟩ := exists_splitUnit (sizeText U s)
  have hbare : Bare isWhitespace (splitUnit (sizeText U s)).1 :=
    Bare.of_append (hr ▸ bare_sizeText)
  obtain ⟨ws, hws, hall⟩ := exists_eq_trim_append hbare
  rw [parseSize_eq] at h
  cases hn : F.fromStr (trim isWhitespace (splitUnit (sizeText U s)).1) with
  | none =>
    rw [hn] at h
    cases h
  | some n =>
    rw [hn] at h
    cases h
    refine ⟨n, r, ⟨_, ws, ?_, hn, hall⟩, by rw [hmult]⟩
    rw [← hws]
    exact hr

theorem Numeral.plain {x ws : List Char} (hx : Numeral x)
    (hws : ∀ c ∈ ws, isWhitespace c = true) : Plain (x ++ ws) :=
  (hx.mono fun _ hc => hc.1).append
    (ends_of_forall fun c hc => not_isUnitLetter_of_isWhitespace (hws c hc))

/-- **A number, white space and a run of units are accepted**, with the multiplier of one unit. -/
theorem parseSize_of_parts {x ws : List Char} {n : F.Num} {r : UnitRun}
    (ht : sizeText U s = x ++ ws ++ r.text) (hx : F.fromStr x = some n) (hnum : Numeral x)
    (hws : ∀ c ∈ ws, isWhitespace c = true) :
    parseSize U F s = .ok (F.toU64 (F.mul n (F.ofU64 r.mult))) := by
  have hbare : Bare isWhitespace (x ++ ws ++ r.text) := ht ▸ bare_sizeText
  have hne : x ≠ [] ∨ ws = [] := by
    by_contra hcon
    push Not at hcon
    obtain ⟨rfl, hnil⟩ := hcon
    obtain ⟨c, cs, rfl⟩ := List.exists_cons_of_ne_nil hnil
    have hc := hbare c rfl
    rw [hws c (by simp)] at hc
    cases hc
  have htrim : trim isWhitespace (x ++ ws) = x :=
    trim_append (r := []) (by simp) hbare.of_append.of_append (hnum.mono fun _ hc => hc.2) hne hws
  rw [parseSize_eq, ht, splitUnit_append (hnum.plain hws), htrim, hx, Option.elim_some]

/-- There is only one way to read a text as a number and a run of units. -/
theorem NumberThen.text_eq (hF : F.Strict) {n n' : F.Num} {r r' : UnitRun}
    (h : NumberThen F t n r) (h' : NumberThen F t n' r') : r.text = r'.text := by
  obtain ⟨x, ws, rfl, hx, hws⟩ := h
  obtain ⟨x', ws', heq, hx', hws'⟩ := h'
  have hsplit := splitUnit_append ((hF x n hx).plain hws) r
  rw [heq, splitUnit_append ((hF x' n' hx').plain hws') r'] at hsplit
  have hnum : x' ++ ws' = x ++ ws := congrArg Prod.fst hsplit
  rw [hnum] at heq
  exact List.append_cancel_left heq

theorem UnitRun.length_text (r : UnitRun) : r.text.length =
    match r with
    | bytes b => b
    | scaled _ a b _ => a + 2 * b := by
  cases r with
  | bytes b => simp [text, length_power]
  | scaled m a b h =>
    simp only [text, List.length_append, length_power, List.length_cons, List.length_nil]
    omega

theorem UnitRun.count_text (r : UnitRun) : r.text.count 'B' =
    match r with
    | bytes b => b
    | scaled _ _ b _ => b := by
  cases r with
  | bytes b => simp [text, count_power]
  | scaled m a b h => simp [text, count_power, letter_ne]

theorem UnitRun.count_eq_of_text {r r' : UnitRun} (h : r.text = r'.text) : r.count = r'.count := by
  have hlen := congrArg List.length h
  have hcount := congrArg (List.count 'B') h
  rw [length_text, length_text] at hlen
  rw [count_text, count_text] at hcount
  cases r with
  | bytes b =>
    cases r' with
    | bytes b' => exact hlen
    | scaled m' a' b' h' => dsimp only at hlen hcount; omega
  | scaled m a b h =>
    cases r' with
    | bytes b' => dsimp only at hlen hcount; omega
    | scaled m' a' b' h' => dsimp only [count] at hlen hcount ⊢; omega

theorem denotesSize_iff {v : UInt64} : DenotesSize F t v ↔
    ∃ n r, NumberThen F t n r ∧ r.count ≤ 1 ∧ v = F.toU64 (F.mul n (F.ofU64 r.mult)) := by
  constructor
  · rintro ⟨x, n, ws, u, m, ht, hx, hws, hu, hv⟩
    obtain ⟨r, hr, rfl, rfl⟩ := mem_units_iff.1 hu
    exact ⟨n, r, ⟨x, ws, ht, hx, hws⟩, hr, hv⟩
  · rintro ⟨n, r, ⟨x, ws, ht, hx, hws⟩, hr, hv⟩
    exact ⟨x, n, ws, _, _, ht, hx, hws, mem_units_iff.2 ⟨r, hr, rfl, rfl⟩, hv⟩

/-- A repeated unit is accepted, but does not denote a size. -/
theorem exists_of_repeatedUnit (hF : F.Strict) (h : RepeatedUnit F (sizeText U s)) :
    ∃ v, parseSize U F s = .ok v ∧ ¬ DenotesSize F (sizeText U s) v := by
  obtain ⟨n, r, hr, hcount⟩ := h
  have ⟨x, ws, ht, hx, hws⟩ := hr
  refine ⟨_, parseSize_of_parts ht hx (hF x n hx) hws, fun hd => ?_⟩
  obtain ⟨n', r', hr', hone, -⟩ := denotesSize_iff.1 hd
  have := UnitRun.count_eq_of_text (hr.text_eq hF hr')
  omega

/-- **What is accepted is a number and at most one unit** if and only if the unit is not
repeated. -/
theorem parseSize_sound_iff (U : CaseData) (F : F64) (hF : F.Strict) (s : String) :
    (∀ v, parseSize U F s = .ok v → DenotesSize F (sizeText U s) v) ↔
      ¬ RepeatedUnit F (sizeText U s) := by
  constructor
  · intro h hrep
    obtain ⟨v, hv, hd⟩ := exists_of_repeatedUnit hF hrep
    exact hd (h v hv)
  · intro hrep v hv
    obtain ⟨n, r, hr, hv⟩ := numberThen_of_parseSize hv
    refine denotesSize_iff.2 ⟨n, r, hr, ?_, hv⟩
    by_contra hcount
    exact hrep ⟨n, r, hr, by omega⟩

/-- Natural numbers in decimal. -/
def F64.decimal : F64 where
  Num := ℕ
  fromStr x := if x ≠ [] ∧ x.all Char.isDigit then some (Nat.ofDigitChars 10 x 0) else none
  ofU64 := UInt64.toNat
  mul := (· * ·)
  toU64 n := UInt64.ofNat (min n (2 ^ 64 - 1))

theorem isDigit_spec {c : Char} (h : c.isDigit = true) :
    IsAscii c ∧ ¬ IsUnitLetter c ∧ isWhitespace c = false ∧ c.toUpper = c := by
  have hc : IsAscii c := by
    simp only [Char.isDigit, Bool.and_eq_true, decide_eq_true_eq] at h
    exact UInt32.lt_of_le_of_lt h.2 (by decide)
  exact ⟨hc, forall_isAscii (P := fun c => c.isDigit = true →
    ¬ IsUnitLetter c ∧ isWhitespace c = false ∧ c.toUpper = c) (by decide) hc h⟩

theorem numeral_of_digits {ds : List Char} (h : ∀ c ∈ ds, c.isDigit = true) : Numeral ds :=
  ends_of_forall fun c hc => ⟨(isDigit_spec (h c hc)).2.1, (isDigit_spec (h c hc)).2.2.1⟩

theorem F64.decimal_strict : F64.decimal.Strict := by
  intro x n hx
  unfold decimal at hx
  dsimp only at hx
  split_ifs at hx with h
  exact numeral_of_digits (List.all_eq_true.1 h.2)

/-- `2mbmb` is not `2 mb`, and is accepted. -/
theorem parseSize_sound_mbmb : ¬ ∀ v, parseSize .latin1 .decimal "2mbmb" = .ok v →
    DenotesSize .decimal (sizeText .latin1 "2mbmb") v := fun h =>
  (parseSize_sound_iff .latin1 .decimal F64.decimal_strict "2mbmb").1 h
    ⟨(2 : ℕ), .scaled .mega 0 2 (by decide), ⟨['2'], [], by decide, rfl, by simp⟩, by decide⟩

/-- **`1GG` is accepted.** -/
theorem not_parseSize_sound : ¬ ∀ s v, parseSize .latin1 .decimal s = .ok v →
    DenotesSize .decimal (sizeText .latin1 s) v := by
  intro h
  have hrep : RepeatedUnit .decimal (sizeText .latin1 "1GG") :=
    ⟨(1 : ℕ), .scaled .giga 2 0 (by decide), ⟨['1'], [], by decide, rfl, by simp⟩, by decide⟩
  obtain ⟨v, hv, hd⟩ := exists_of_repeatedUnit F64.decimal_strict hrep
  exact hd (h _ v hv)

/-! ### Integers -/

/-- Integers up to the precision are exact; `Is x n` says that the number `x` has the value `n`. -/
structure F64.Exact (F : F64) (Is : F.Num → ℕ → Prop) : Prop where
  /-- Decimal integers below `2 ^ 53` are parsed exactly. -/
  fromStr : ∀ x, x ≠ [] → (∀ c ∈ x, c.isDigit = true) → Nat.ofDigitChars 10 x 0 < 2 ^ 53 →
    ∃ n, F.fromStr x = some n ∧ Is n (Nat.ofDigitChars 10 x 0)
  /-- Powers of two are cast exactly. -/
  ofU64 : ∀ k < 64, Is (F.ofU64 (UInt64.ofNat (2 ^ k))) (2 ^ k)
  /-- Multiplication by a power of two is exact. -/
  mul : ∀ x y n k, Is x n → n < 2 ^ 53 → Is y (2 ^ k) → k < 64 → Is (F.mul x y) (n * 2 ^ k)
  /-- The cast to `u64` saturates. -/
  toU64 : ∀ x n, Is x n → F.toU64 x = UInt64.ofNat (min n (2 ^ 64 - 1))

theorem UnitRun.exists_mult_eq (r : UnitRun) :
    ∃ k < 64, r.mult = UInt64.ofNat (2 ^ k) ∧ r.mult.toNat = 2 ^ k := by
  cases r with
  | bytes b => exact ⟨0, by decide, rfl, rfl⟩
  | scaled m =>
    cases m with
    | kilo => exact ⟨10, by decide, rfl, rfl⟩
    | mega => exact ⟨20, by decide, rfl, rfl⟩
    | giga => exact ⟨30, by decide, rfl, rfl⟩

theorem map_toUpper_of_digits {ds : List Char} (h : ∀ c ∈ ds, c.isDigit = true) :
    ds.map Char.toUpper = ds :=
  map_eq_self fun c hc => (isDigit_spec (h c hc)).2.2.2

theorem map_toUpper_of_whitespace {ws : List Char}
    (h : ∀ c ∈ ws, IsAscii c ∧ isWhitespace c = true) : ws.map Char.toUpper = ws :=
  map_eq_self fun c hc => forall_isAscii
    (P := fun c => isWhitespace c = true → c.toUpper = c) (by decide) (h c hc).1 (h c hc).2

theorem unit_spec {u : List Char} {m : UInt64} (h : (u.map Char.toUpper, m) ∈ units) :
    ∀ c ∈ u, IsAscii c ∧ isWhitespace c = false := by
  have hall : (units.all fun x => x.1.all fun c => IsUnitLetter c ∧ IsAscii c) = true := by decide
  intro c hc
  obtain ⟨hletter, hup⟩ := List.all_iff_forall_prop.1 (List.all_eq_true.1 hall _ h) c.toUpper
    (List.mem_map_of_mem hc)
  have hascii : IsAscii c := by
    by_contra hn
    rw [CaseData.toUpper_of_not_isAscii hn] at hup
    exact hn hup
  exact ⟨hascii, forall_isAscii (P := fun c => IsUnitLetter c.toUpper → isWhitespace c = false)
    (by decide) hascii hletter⟩

theorem bare_of_digits {ds : List Char} (hds : ds ≠ []) (h : ∀ c ∈ ds, c.isDigit = true)
    (s : List Char) : Bare isWhitespace (ds ++ s) := by
  obtain ⟨d, ds', rfl⟩ := List.exists_cons_of_ne_nil hds
  intro c hc
  obtain rfl := Option.some.inj hc
  exact (isDigit_spec (h d List.mem_cons_self)).2.2.1

theorem sizeText_of_parts (U : CaseData) {ws₁ ds ws₂ u ws₃ : List Char} {m : UInt64} (hds : ds ≠ [])
    (hdigit : ∀ c ∈ ds, c.isDigit = true) (hu : (u.map Char.toUpper, m) ∈ units)
    (hws : ∀ c ∈ ws₁ ++ ws₂ ++ ws₃, IsAscii c ∧ isWhitespace c = true) :
    ∃ ws, (∀ c ∈ ws, isWhitespace c = true) ∧
      sizeText U (String.ofList (ws₁ ++ ds ++ ws₂ ++ u ++ ws₃)) =
        ds ++ ws ++ u.map Char.toUpper := by
  have h₁ : ∀ c ∈ ws₁, isWhitespace c = true := fun c hc => (hws c (by simp [hc])).2
  have h₂ : ∀ c ∈ ws₂, IsAscii c ∧ isWhitespace c = true := fun c hc => hws c (by simp [hc])
  have h₃ : ∀ c ∈ ws₃, isWhitespace c = true := fun c hc => (hws c (by simp [hc])).2
  have hasc : ∀ c ∈ ds, IsAscii c := fun c hc => (isDigit_spec (hdigit c hc)).1
  have hbare : ∀ s, Bare isWhitespace (ds ++ s) := bare_of_digits hds hdigit
  rw [sizeText, String.toList_ofList]
  by_cases hnil : u = []
  · subst hnil
    have htrim : trim isWhitespace (ws₁ ++ ds ++ (ws₂ ++ ws₃)) = ds := by
      refine trim_append h₁ (List.append_nil ds ▸ hbare [])
        ((numeral_of_digits hdigit).mono fun _ hc => hc.2) (Or.inl hds) fun c hc => ?_
      exact (List.mem_append.1 hc).elim (fun hc => (h₂ c hc).2) (h₃ c)
    refine ⟨[], by simp, ?_⟩
    rw [List.append_nil, List.append_assoc, htrim, CaseData.toUppercase_ascii hasc,
      map_toUpper_of_digits hdigit]
    simp
  · have htrim : trim isWhitespace (ws₁ ++ (ds ++ ws₂ ++ u) ++ ws₃) = ds ++ ws₂ ++ u := by
      refine trim_append h₁ ?_ ((ends_append_of_ne_nil hnil).2
        (ends_of_forall fun c hc => (unit_spec hu c hc).2)) (Or.inl (by simp [hds])) h₃
      rw [List.append_assoc]
      exact hbare _
    have hall : ∀ c ∈ ds ++ ws₂ ++ u, IsAscii c := by
      intro c hc
      simp only [List.mem_append] at hc
      rcases hc with (hc | hc) | hc
      · exact hasc c hc
      · exact (h₂ c hc).1
      · exact (unit_spec hu c hc).1
    refine ⟨ws₂, fun c hc => (h₂ c hc).2, ?_⟩
    rw [show ws₁ ++ ds ++ ws₂ ++ u ++ ws₃ = ws₁ ++ (ds ++ ws₂ ++ u) ++ ws₃ by simp, htrim,
      CaseData.toUppercase_ascii hall, List.map_append, List.map_append,
      map_toUpper_of_digits hdigit, map_toUpper_of_whitespace h₂]

/-- **Integers are read exactly** : the text of a natural number below `2 ^ 53`, with a unit in any
letter case, and ASCII white space before, between and behind them. -/
theorem parseSize_exact (U : CaseData) (F : F64) (Is : F.Num → ℕ → Prop) (hF : F.Exact Is)
    (ws₁ ds ws₂ u ws₃ : List Char) (m : UInt64) (hds : ds ≠ [])
    (hdigit : ∀ c ∈ ds, c.isDigit = true) (hn : Nat.ofDigitChars 10 ds 0 < 2 ^ 53)
    (hu : (u.map Char.toUpper, m) ∈ units)
    (hws : ∀ c ∈ ws₁ ++ ws₂ ++ ws₃, IsAscii c ∧ isWhitespace c = true) :
    parseSize U F (String.ofList (ws₁ ++ ds ++ ws₂ ++ u ++ ws₃)) =
      .ok (UInt64.ofNat (min (Nat.ofDigitChars 10 ds 0 * m.toNat) (2 ^ 64 - 1))) := by
  obtain ⟨ws, hall, ht⟩ := sizeText_of_parts U hds hdigit hu hws
  obtain ⟨r, -, hr, rfl⟩ := mem_units_iff.1 hu
  rw [← hr] at ht
  obtain ⟨n, hx, hIs⟩ := hF.fromStr ds hds hdigit hn
  obtain ⟨k, hk, hm, hmNat⟩ := r.exists_mult_eq
  have hpow : Is (F.ofU64 r.mult) (2 ^ k) := hm ▸ hF.ofU64 k hk
  rw [parseSize_of_parts ht hx (numeral_of_digits hdigit) hall, hmNat,
    hF.toU64 _ _ (hF.mul _ _ _ k hIs hn hpow hk)]

theorem F64.decimal_exact : F64.decimal.Exact fun x n => x = n where
  fromStr x hx hdigit _ := ⟨_, if_pos ⟨hx, List.all_eq_true.2 hdigit⟩, rfl⟩
  ofU64 k hk := UInt64.toNat_ofNat_of_lt' (Nat.pow_lt_pow_right (by decide) hk)
  mul := by
    rintro _ _ n k rfl _ rfl _
    rfl
  toU64 := by
    rintro _ n rfl
    rfl

/-- ` 007 kB`, with a tab behind it. -/
theorem parseSize_exact_kb :
    parseSize .latin1 .decimal (String.ofList ([' '] ++ ['0', '0', '7'] ++ [' '] ++ ['k', 'B'] ++
      ['\t'])) = .ok (UInt64.ofNat (min (7 * 1024) (2 ^ 64 - 1))) :=
  parseSize_exact .latin1 .decimal (fun x n => x = n) F64.decimal_exact [' '] ['0', '0', '7'] [' ']
    ['k', 'B'] ['\t'] 1024 (by decide) (List.all_eq_true.1 (by decide)) (by decide) (by decide)
    (List.all_iff_forall_prop.1 (by decide))

end Cli

end Pfind
