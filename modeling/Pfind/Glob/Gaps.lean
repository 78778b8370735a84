import Pfind.Glob.Language

/-!
# The gaps between the literals of a pattern

Stars and wildcards that stand next to each other form a gap, which admits strings by their length
only.  `gaps` splits a pattern into its literals and the gaps around them.  A literal may stand for
several symbols: `expand enc` puts the symbols `enc b` in the place of the literal `b`.

* `matches_expand_iff` : **a string matches if and only if it is the literals, with a string of
  admitted length in every gap** (`Divides`).  The length may also be measured otherwise than by the
  number of symbols.
* `Divides.rigid` : where the gaps of a string have been filled with as few symbols of some kind as
  they admit, every division of the string has that few in each gap.
-/

namespace Pfind

namespace Glob

variable {α β : Type*}

/-! ### Gaps -/

/-- What stands between two literals. -/
structure Gap where
  /-- The number of wildcards. -/
  width : ℕ
  /-- There is a star. -/
  star : Bool
  deriving DecidableEq

namespace Gap

/-- No wildcards. -/
def none : Gap := ⟨0, false⟩

/-- One wildcard more. -/
def succ (g : Gap) : Gap := { g with width := g.width + 1 }

/-- With a star. -/
def starred (g : Gap) : Gap := { g with star := true }

/-- The gap admits strings of length `n`. -/
def Fits (g : Gap) (n : ℕ) : Prop := n = g.width ∨ g.star = true ∧ g.width ≤ n

variable {g : Gap} {n : ℕ}

theorem Fits.width_le (h : g.Fits n) : g.width ≤ n := by
  rcases h with rfl | h
  · exact Nat.le_refl _
  · exact h.2

theorem fits_none : none.Fits n ↔ n = 0 := by
  simp [Fits, none]

theorem fits_succ : g.succ.Fits (n + 1) ↔ g.Fits n := by
  simp [Fits, succ]

theorem fits_starred : g.starred.Fits n ↔ g.width ≤ n := by
  simp only [Fits, starred, true_and]
  omega

end Gap

/-- The gap before the first literal, and the literals with the gaps behind them. -/
def gaps : List (Tok β) → Gap × List (β × Gap)
  | [] => (.none, [])
  | .star :: p => ((gaps p).1.starred, (gaps p).2)
  | .any :: p => ((gaps p).1.succ, (gaps p).2)
  | .lit b :: p => (.none, (b, (gaps p).1) :: (gaps p).2)

/-- All the gaps. -/
def allGaps (x : Gap × List (β × Gap)) : List Gap := x.1 :: x.2.map Prod.snd

/-! ### Divisions -/

/-- The string is the literals, with strings of admitted length in the gaps behind them. -/
def Behind (enc : β → List α) (size : List α → ℕ) : List (β × Gap) → List α → Prop
  | [], s => s = []
  | (b, g) :: r, s => ∃ f t, s = enc b ++ (f ++ t) ∧ g.Fits (size f) ∧ Behind enc size r t

/-- The string is the literals, with strings of admitted length in all the gaps. -/
def Divides (enc : β → List α) (size : List α → ℕ) (x : Gap × List (β × Gap)) (s : List α) : Prop :=
  ∃ f t, s = f ++ t ∧ x.1.Fits (size f) ∧ Behind enc size x.2 t

/-- The pattern with the symbols `enc b` in the place of the literal `b`. -/
def expand (enc : β → List α) (p : List (Tok β)) : List (Tok α) :=
  p.flatMap fun
    | .star => [.star]
    | .any => [.any]
    | .lit b => (enc b).map .lit

variable {enc : β → List α} {size size' : List α → ℕ} {g : Gap} {r : List (β × Gap)}
  {x : Gap × List (β × Gap)} {b : β} {s : List α}

theorem behind_cons_iff : Behind enc size ((b, g) :: r) s ↔
    ∃ t, s = enc b ++ t ∧ Divides enc size (g, r) t := by
  constructor
  · rintro ⟨f, t, hs, hf, ht⟩
    exact ⟨f ++ t, hs, f, t, rfl, hf, ht⟩
  · rintro ⟨_, hs, f, t, rfl, hf, ht⟩
    exact ⟨f, t, hs, hf, ht⟩

theorem divides_none_iff : Divides enc List.length (.none, r) s ↔ Behind enc List.length r s := by
  constructor
  · rintro ⟨f, t, rfl, hf, ht⟩
    obtain rfl := List.length_eq_zero_iff.1 (Gap.fits_none.1 hf)
    exact ht
  · intro h
    exact ⟨[], s, rfl, Gap.fits_none.2 rfl, h⟩

theorem divides_succ_iff : Divides enc List.length (g.succ, r) s ↔
    ∃ a t, s = a :: t ∧ Divides enc List.length (g, r) t := by
  constructor
  · rintro ⟨f, t, rfl, hf, ht⟩
    cases f with
    | nil => exact absurd hf.width_le (Nat.not_succ_le_zero _)
    | cons a f => exact ⟨a, f ++ t, rfl, f, t, rfl, Gap.fits_succ.1 hf, ht⟩
  · rintro ⟨a, _, rfl, f, t, rfl, hf, ht⟩
    exact ⟨a :: f, t, rfl, Gap.fits_succ.2 hf, ht⟩

theorem divides_starred_iff : Divides enc List.length (g.starred, r) s ↔
    ∃ run rest, s = run ++ rest ∧ Divides enc List.length (g, r) rest := by
  constructor
  · rintro ⟨f, t, rfl, hf, ht⟩
    have hle : g.width ≤ f.length := Gap.fits_starred.1 hf
    -- the star takes what is too much for the wildcards
    refine ⟨f.take (f.length - g.width), f.drop (f.length - g.width) ++ t, ?_,
      f.drop (f.length - g.width), t, rfl, Or.inl ?_, ht⟩
    · rw [← List.append_assoc, List.take_append_drop]
    · show (f.drop (f.length - g.width)).length = g.width
      rw [List.length_drop]
      omega
  · rintro ⟨run, _, rfl, f, t, rfl, hf, ht⟩
    refine ⟨run ++ f, t, (List.append_assoc _ _ _).symm, Gap.fits_starred.2 ?_, ht⟩
    exact Nat.le_trans hf.width_le (List.suffix_append run f).length_le

theorem matches_map_lit_append_iff {w : List α} {p : List (Tok α)} :
    Matches Free (w.map .lit ++ p) s ↔ ∃ t, s = w ++ t ∧ Matches Free p t := by
  induction w generalizing s with
  | nil => simp
  | cons a w ih =>
    cases s with
    | nil => exact ⟨nofun, fun ⟨t, h, _⟩ => by cases h⟩
    | cons c s =>
      rw [List.map_cons, List.cons_append, matches_lit_cons_iff, ih]
      simp only [List.cons_append, List.cons.injEq, and_assoc, exists_and_left, eq_comm]

/-- **The language of a pattern by its gaps.** -/
theorem matches_expand_iff {p : List (Tok β)} :
    Matches Free (expand enc p) s ↔ Divides enc List.length (gaps p) s := by
  induction p generalizing s with
  | nil =>
    rw [gaps, divides_none_iff]
    exact matches_nil_iff
  | cons t p ih =>
    cases t with
    | star =>
      rw [gaps, divides_starred_iff]
      show Matches Free (.star :: expand enc p) s ↔ _
      simp only [matches_star_iff, Free, true_and, ih]
    | any =>
      rw [gaps, divides_succ_iff]
      show Matches Free (.any :: expand enc p) s ↔ _
      cases s with
      | nil => exact ⟨nofun, fun ⟨a, t, h, _⟩ => by cases h⟩
      | cons a s => simp [matches_any_cons_iff, ih]
    | lit b =>
      rw [gaps, divides_none_iff, behind_cons_iff]
      show Matches Free ((enc b).map .lit ++ expand enc p) s ↔ _
      simp only [matches_map_lit_append_iff, ih]

theorem mem_of_mem_gaps {p : List (Tok β)} {y : β × Gap} (hy : y ∈ (gaps p).2) : .lit y.1 ∈ p := by
  induction p with
  | nil => cases hy
  | cons t p ih =>
    cases t with
    | star => exact List.mem_cons_of_mem _ (ih hy)
    | any => exact List.mem_cons_of_mem _ (ih hy)
    | lit b =>
      rcases List.mem_cons.1 hy with rfl | hy
      · exact List.mem_cons_self
      · exact List.mem_cons_of_mem _ (ih hy)

theorem expand_cons (t : Tok β) (p : List (Tok β)) :
    expand enc (t :: p) = expand enc [t] ++ expand enc p := by
  simp [expand]

theorem expand_singleton (p : List (Tok β)) : expand (fun b => [b]) p = p := by
  induction p with
  | nil => rfl
  | cons t p ih =>
    cases t with
    | star => exact congrArg (List.cons _) ih
    | any => exact congrArg (List.cons _) ih
    | lit b => exact congrArg (List.cons _) ih

/-! ### Measuring the strings otherwise -/

theorem Behind.congr (hsize : ∀ y ∈ r, ∀ f ⊆ s, y.2.Fits (size f) → y.2.Fits (size' f))
    (h : Behind enc size r s) : Behind enc size' r s := by
  induction r generalizing s with
  | nil => exact h
  | cons y r ih =>
    obtain ⟨f, t, rfl, hf, ht⟩ := h
    have hsub : f ++ t ⊆ enc y.1 ++ (f ++ t) := List.subset_append_right _ _
    have hfsub : f ⊆ f ++ t := List.subset_append_left f t
    have htsub : t ⊆ f ++ t := List.subset_append_right f t
    refine ⟨f, t, rfl, hsize y List.mem_cons_self f (List.Subset.trans hfsub hsub) hf, ?_⟩
    refine ih (fun z hz f' hf' => ?_) ht
    exact hsize z (List.mem_cons_of_mem _ hz) f'
      (List.Subset.trans hf' (List.Subset.trans htsub hsub))

theorem Divides.congr (hsize : ∀ g ∈ allGaps x, ∀ f ⊆ s, g.Fits (size f) → g.Fits (size' f))
    (h : Divides enc size x s) : Divides enc size' x s := by
  obtain ⟨f, t, rfl, hf, ht⟩ := h
  have htsub : t ⊆ f ++ t := List.subset_append_right f t
  refine ⟨f, t, rfl, hsize x.1 List.mem_cons_self f (List.subset_append_left f t) hf, ?_⟩
  refine ht.congr fun y hy f' hf' => ?_
  exact hsize y.2 (List.mem_cons_of_mem _ (List.mem_map_of_mem hy)) f' (List.Subset.trans hf' htsub)

/-! ### Filling the gaps -/

/-- The literals with `φ g` in the gap `g` behind each. -/
def fillBehind (φ : Gap → List β) (r : List (β × Gap)) : List β := r.flatMap fun y => y.1 :: φ y.2

/-- The literals with `φ g` in every gap `g`. -/
def fill (φ : Gap → List β) (x : Gap × List (β × Gap)) : List β := φ x.1 ++ fillBehind φ x.2

variable {φ : Gap → List β} {size : List β → ℕ} {q : β → Bool} {t : List β}

theorem behind_fillBehind (hφ : ∀ g : Gap, g.Fits (size (φ g))) :
    Behind (fun b => [b]) size r (fillBehind φ r) := by
  induction r with
  | nil => rfl
  | cons y r ih => exact ⟨φ y.2, fillBehind φ r, rfl, hφ y.2, ih⟩

theorem divides_fill (hφ : ∀ g : Gap, g.Fits (size (φ g))) :
    Divides (fun b => [b]) size x (fill φ x) :=
  ⟨φ x.1, fillBehind φ x.2, rfl, hφ x.1, behind_fillBehind hφ⟩

theorem mem_fill {c : β} (hc : c ∈ fill φ x) : (∃ g, c ∈ φ g) ∨ ∃ y ∈ x.2, c = y.1 := by
  rcases List.mem_append.1 hc with hc | hc
  · exact Or.inl ⟨x.1, hc⟩
  · obtain ⟨y, hy, hc⟩ := List.mem_flatMap.1 hc
    rcases List.mem_cons.1 hc with rfl | hc
    · exact Or.inr ⟨y, hy, rfl⟩
    · exact Or.inl ⟨y.2, hc⟩

/-- `φ` has the fewest symbols in `q` of all the strings that the gap admits. -/
def Fewest (size : List β → ℕ) (q : β → Bool) (φ : Gap → List β) : Prop :=
  ∀ (g : Gap) (f : List β), g.Fits (size f) → (φ g).countP q ≤ f.countP q

theorem Behind.countP_le (hφ : Fewest size q φ) (h : Behind (fun b => [b]) size r t) :
    (fillBehind φ r).countP q ≤ t.countP q := by
  induction r generalizing t with
  | nil => exact Nat.zero_le _
  | cons y r ih =>
    obtain ⟨f, t, rfl, hf, ht⟩ := h
    have hr := ih ht
    have hg := hφ y.2 f hf
    show ([y.1] ++ (φ y.2 ++ fillBehind φ r)).countP q ≤ _
    simp only [List.countP_append]
    omega

theorem Behind.rigid (hφ : Fewest size q φ) (h : Behind (fun b => [b]) size r t)
    (hle : t.countP q ≤ (fillBehind φ r).countP q) {y : β × Gap} (hy : y ∈ r) :
    ∃ f, y.2.Fits (size f) ∧ f.countP q ≤ (φ y.2).countP q := by
  induction r generalizing t with
  | nil => cases hy
  | cons z r ih =>
    obtain ⟨f, t, rfl, hf, ht⟩ := h
    have hr := ht.countP_le hφ
    have hg := hφ z.2 f hf
    have hsum : ([z.1] ++ (f ++ t)).countP q ≤ ([z.1] ++ (φ z.2 ++ fillBehind φ r)).countP q := hle
    simp only [List.countP_append] at hsum
    rcases List.mem_cons.1 hy with rfl | hy
    · exact ⟨f, hf, by omega⟩
    · exact ih ht (by omega) hy

/-- **Every division of a string with the fewest symbols in `q` has the fewest in each gap.** -/
theorem Divides.rigid (hφ : Fewest size q φ) (h : Divides (fun b => [b]) size x (fill φ x))
    {g : Gap} (hg : g ∈ allGaps x) : ∃ f, g.Fits (size f) ∧ f.countP q ≤ (φ g).countP q := by
  obtain ⟨f, t, hs, hf, ht⟩ := h
  have hsum := congrArg (List.countP q) hs
  simp only [fill, List.countP_append] at hsum
  have hr := ht.countP_le hφ
  have hfst := hφ x.1 f hf
  rcases List.mem_cons.1 hg with rfl | hg
  · exact ⟨f, hf, by omega⟩
  · obtain ⟨y, hy, rfl⟩ := List.mem_map.1 hg
    exact ht.rigid hφ (by omega) hy

end Glob

end Pfind
