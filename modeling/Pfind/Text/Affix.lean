import Mathlib.Data.List.DropRight

/-!
# Stripping the ends of a list

Two operations that take something off the end of a list as often as it stands there: elements
with a property (`trim`, on both ends), and a word (`trimEndMatches`).

* `Ends q s` : the last element of `s`, if there is one, has the property `q`.
* `trim_append` : `trim` finds what stands between elements with the property.
* `mem_trim` : an element without the property is not stripped.
* `eq_trimEndMatches_append` : `trimEndMatches w s` is `s` without a number of copies of `w`.
* `trimEndMatches_append` : **it takes off all of them**, and nothing else.
-/

namespace Pfind

namespace Text

variable {α : Type*}

/-- The last element of `s`, if any, has the property. -/
def Ends (q : α → Prop) (s : List α) : Prop := ∀ c ∈ s.getLast?, q c

theorem ends_append_of_ne_nil {q : α → Prop} {s t : List α} (ht : t ≠ []) :
    Ends q (s ++ t) ↔ Ends q t := by
  obtain ⟨c, hc⟩ := Option.ne_none_iff_exists'.1 (mt List.getLast?_eq_none_iff.1 ht)
  simp [Ends, List.getLast?_append, hc]

theorem ends_of_forall {q : α → Prop} {s : List α} (h : ∀ c ∈ s, q c) : Ends q s := fun _ hc =>
  h _ (List.mem_of_getLast? hc)

theorem Ends.append {q : α → Prop} {s t : List α} (hs : Ends q s) (ht : Ends q t) :
    Ends q (s ++ t) := by
  by_cases hnil : t = []
  · rwa [hnil, List.append_nil]
  · exact (ends_append_of_ne_nil hnil).2 ht

theorem Ends.mono {q q' : α → Prop} {s : List α} (h : Ends q s) (hq : ∀ c, q c → q' c) :
    Ends q' s := fun c hc => hq c (h c hc)

theorem Ends.not_suffix {q : α → Prop} {s : List α} {c : α} (h : Ends q s) (hc : ¬ q c) :
    ¬ [c] <:+ s := by
  rintro ⟨t, rfl⟩
  exact hc (h c (by simp))

theorem append_singleton_suffix_iff {s t : List α} {a b : α} :
    s ++ [a] <:+ t ++ [b] ↔ s <:+ t ∧ a = b := by
  rw [← List.reverse_prefix, List.reverse_append, List.reverse_append, List.reverse_singleton,
    List.reverse_singleton, List.singleton_append, List.singleton_append, List.cons_prefix_cons,
    List.reverse_prefix, and_comm]

theorem singleton_suffix_iff {t : List α} {a b : α} : [a] <:+ t ++ [b] ↔ a = b := by
  rw [← List.nil_append [a], append_singleton_suffix_iff]
  simp

/-! ### Elements with a property -/

/-- `s` without the elements with the property at both ends. -/
def trim (p : α → Bool) (s : List α) : List α := (s.dropWhile p).rdropWhile p

/-- The first element of `s`, if any, does not have the property. -/
def Bare (p : α → Bool) (s : List α) : Prop := ∀ c ∈ s.head?, p c = false

variable {p : α → Bool}

theorem Bare.of_append {s t : List α} (h : Bare p (s ++ t)) : Bare p s := by
  intro c hc
  refine h c ?_
  rw [List.head?_append, Option.mem_def.1 hc]
  rfl

theorem dropWhile_of_bare {s : List α} (h : Bare p s) : s.dropWhile p = s := by
  cases s with
  | nil => rfl
  | cons c s => rw [List.dropWhile_cons, if_neg (by simp [h c rfl])]

theorem rdropWhile_append {s t : List α} (hs : Ends (fun c => p c = false) s)
    (ht : ∀ c ∈ t, p c = true) : (s ++ t).rdropWhile p = s := by
  induction t using List.reverseRecOn with
  | nil =>
    rw [List.append_nil, List.rdropWhile_eq_self_iff]
    intro hne
    simp [hs _ (List.getLast?_eq_some_getLast hne)]
  | append_singleton t c ih =>
    rw [← List.append_assoc, List.rdropWhile_concat_pos _ _ _ (ht c (by simp))]
    exact ih fun d hd => ht d (List.mem_append_left _ hd)

/-- **What stands between elements with the property is found.** -/
theorem trim_append {r s t : List α} (hr : ∀ c ∈ r, p c = true) (hs : Bare p s)
    (hs' : Ends (fun c => p c = false) s) (hne : s ≠ [] ∨ t = []) (ht : ∀ c ∈ t, p c = true) :
    trim p (r ++ s ++ t) = s := by
  have hst : Bare p (s ++ t) := by
    rcases hne with hne | rfl
    · cases s with
      | nil => exact absurd rfl hne
      | cons c s => exact hs
    · rwa [List.append_nil]
  rw [trim, List.append_assoc, List.dropWhile_append_of_pos hr, dropWhile_of_bare hst,
    rdropWhile_append hs' ht]

theorem bare_trim (s : List α) : Bare p (trim p s) := by
  intro c hc
  have hpre : trim p s <+: s.dropWhile p := List.rdropWhile_prefix _ _
  obtain ⟨t, ht⟩ := hpre
  have hhead : (s.dropWhile p).head? = some c := by
    rw [← ht, List.head?_append, Option.mem_def.1 hc]
    rfl
  have := List.head?_dropWhile_not p s
  rw [hhead] at this
  simpa using this

theorem exists_eq_trim_append {s : List α} (hs : Bare p s) :
    ∃ t, s = trim p s ++ t ∧ ∀ c ∈ t, p c = true :=
  ⟨s.rtakeWhile p, by rw [trim, dropWhile_of_bare hs, List.rdropWhile_append_rtakeWhile],
    fun _ hc => List.mem_rtakeWhile_imp hc⟩

theorem mem_trim {p : α → Bool} {s : List α} {c : α} (hc : c ∈ s) (hp : p c = false) :
    c ∈ trim p s := by
  have htake : c ∉ s.takeWhile p := fun h => by simp [List.mem_takeWhile_imp h] at hp
  have hrtake : c ∉ (s.dropWhile p).rtakeWhile p := fun h => by
    simp [List.mem_rtakeWhile_imp h] at hp
  rw [← List.takeWhile_append_dropWhile (p := p) (l := s)] at hc
  have hdrop := (List.mem_append.1 hc).resolve_left htake
  rw [← List.rdropWhile_append_rtakeWhile (p := p) (l := s.dropWhile p)] at hdrop
  exact (List.mem_append.1 hdrop).resolve_right hrtake

/-! ### A word -/

/-- A word repeated. -/
def power (w : List α) (k : ℕ) : List α := (List.replicate k w).flatten

theorem power_succ (w : List α) (k : ℕ) : power w (k + 1) = power w k ++ w := by
  rw [power, List.replicate_succ', List.flatten_append, List.flatten_singleton, power]

theorem length_power (w : List α) (k : ℕ) : (power w k).length = k * w.length := by
  simp [power]

@[simp] theorem power_zero (w : List α) : power w 0 = [] := rfl

variable [DecidableEq α]

/-- Take the word `w` off the end of `s`, up to `fuel` times. -/
def trimEndLoop (w : List α) : ℕ → List α → List α
  | 0, s => s
  | fuel + 1, s => if w.isSuffixOf s then trimEndLoop w fuel (s.take (s.length - w.length)) else s

/-- `s` without the word `w` at its end, as often as it stands there. -/
def trimEndMatches (w s : List α) : List α := trimEndLoop w s.length s

variable {w : List α}

theorem count_power (c : α) (w : List α) (k : ℕ) : (power w k).count c = k * w.count c := by
  induction k with
  | zero => simp
  | succ k ih => rw [power_succ, List.count_append, ih, Nat.succ_mul]

theorem trimEndLoop_append {r : List α} (hr : ¬ w <:+ r) {k fuel : ℕ} (hk : k ≤ fuel) :
    trimEndLoop w fuel (r ++ power w k) = r := by
  induction k generalizing fuel with
  | zero =>
    have hnil : r ++ power w 0 = r := List.append_nil r
    rw [hnil]
    cases fuel with
    | zero => rfl
    | succ fuel => rw [trimEndLoop, if_neg (by simpa using hr)]
  | succ k ih =>
    obtain ⟨fuel, rfl⟩ : ∃ f, fuel = f + 1 := ⟨fuel - 1, by omega⟩
    rw [power_succ, ← List.append_assoc, trimEndLoop,
      if_pos (List.isSuffixOf_iff_suffix.2 (List.suffix_append _ _))]
    simp only [List.length_append, Nat.add_sub_cancel, List.take_left']
    exact ih (by omega)

/-- **All copies of the word are taken off**, and nothing else. -/
theorem trimEndMatches_append (hw : w ≠ []) {r : List α} (hr : ¬ w <:+ r) (k : ℕ) :
    trimEndMatches w (r ++ power w k) = r := by
  refine trimEndLoop_append hr ?_
  have hpos : 1 ≤ w.length := List.length_pos_iff.2 hw
  have hle : k * 1 ≤ k * w.length := Nat.mul_le_mul_left k hpos
  rw [List.length_append, length_power]
  omega

theorem trimEndLoop_spec (hw : w ≠ []) {fuel : ℕ} {s : List α} (hs : s.length ≤ fuel) :
    ¬ w <:+ trimEndLoop w fuel s ∧ ∃ k, s = trimEndLoop w fuel s ++ power w k := by
  induction fuel generalizing s with
  | zero =>
    obtain rfl := List.length_eq_zero_iff.1 (Nat.le_zero.1 hs)
    exact ⟨fun h => hw (List.suffix_nil.1 h), 0, rfl⟩
  | succ fuel ih =>
    rw [trimEndLoop]
    split_ifs with h
    · obtain ⟨t, rfl⟩ := List.isSuffixOf_iff_suffix.1 h
      have hpos := List.length_pos_iff.2 hw
      rw [List.length_append] at hs
      simp only [List.length_append, Nat.add_sub_cancel, List.take_left']
      obtain ⟨hsuf, k, hk⟩ := ih (s := t) (by omega)
      refine ⟨hsuf, k + 1, ?_⟩
      rw [power_succ, ← List.append_assoc, ← hk]
    · exact ⟨fun hsuf => h (List.isSuffixOf_iff_suffix.2 hsuf), 0, (List.append_nil s).symm⟩

theorem not_suffix_trimEndMatches (hw : w ≠ []) (s : List α) : ¬ w <:+ trimEndMatches w s :=
  (trimEndLoop_spec hw (Nat.le_refl _)).1

theorem eq_trimEndMatches_append (hw : w ≠ []) (s : List α) :
    ∃ k, s = trimEndMatches w s ++ power w k :=
  (trimEndLoop_spec hw (Nat.le_refl _)).2

end Text

end Pfind
