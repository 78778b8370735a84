import Mathlib.Data.List.Basic

/-!
# The language of a glob pattern

A pattern is a list of tokens (`Tok`): a star, a single wildcard, or a literal symbol.
`Matches ok p s` says that `s` splits into one run of symbols for each star, one symbol for each
wildcard and the literal symbols themselves, in order.  The relation `ok run rest` restricts the
runs that a star may take, `rest` being what is left of the string behind the run:

* with `Free` every run is admitted, which is the usual language of a glob pattern;
* with `Pinned a` a star that stands before the symbol `a` takes this one symbol and no other
  run.  This is the language of a matcher that compares a pattern symbol with the string before
  it looks whether the pattern symbol is a star, `a` being the symbol that stands for a star.

`Matches.mono` compares two restrictions, and `matches_pinned_iff_free` says that on strings
without `a` they agree.  `Matches.advance` is the exchange argument behind matchers that
remember one backtrack point only: advancing token and string together by one symbol never
loses a match that starts later in the string.
-/

namespace Pfind

namespace Glob

variable {α : Type*}

/-- A token of a pattern. -/
inductive Tok (α : Type*) where
  /-- Any run of symbols. -/
  | star
  /-- Any one symbol. -/
  | any
  /-- The symbol `a` itself. -/
  | lit (a : α)
  deriving DecidableEq

/-- `s` matches the pattern, each star taking a run that `ok` admits. -/
inductive Matches (ok : List α → List α → Prop) : List (Tok α) → List α → Prop
  | nil : Matches ok [] []
  | star {p : List (Tok α)} {run rest : List α} :
      ok run rest → Matches ok p rest → Matches ok (.star :: p) (run ++ rest)
  | any {p : List (Tok α)} {a : α} {s : List α} :
      Matches ok p s → Matches ok (.any :: p) (a :: s)
  | lit {p : List (Tok α)} {a : α} {s : List α} :
      Matches ok p s → Matches ok (.lit a :: p) (a :: s)

/-- A star takes any run. -/
def Free (_run _rest : List α) : Prop := True

/-- A star that stands before `a` takes exactly this symbol. -/
def Pinned (a : α) (run rest : List α) : Prop := (run ++ rest).head? = some a → run = [a]

variable {ok ok' : List α → List α → Prop} {p : List (Tok α)} {s : List α} {a : α}

/-! ### Inversion -/

theorem matches_nil_iff : Matches ok [] s ↔ s = [] :=
  ⟨fun h => by cases h; rfl, fun h => h ▸ .nil⟩

theorem matches_any_cons_iff : Matches ok (.any :: p) (a :: s) ↔ Matches ok p s :=
  ⟨fun h => by cases h; assumption, .any⟩

theorem matches_lit_cons_iff {b : α} : Matches ok (.lit b :: p) (a :: s) ↔
    b = a ∧ Matches ok p s := by
  constructor
  · intro h; cases h; exact ⟨rfl, by assumption⟩
  · rintro ⟨rfl, h⟩; exact .lit h

theorem matches_star_iff : Matches ok (.star :: p) s ↔
    ∃ run rest, s = run ++ rest ∧ ok run rest ∧ Matches ok p rest := by
  constructor
  · intro h; cases h; exact ⟨_, _, rfl, by assumption, by assumption⟩
  · rintro ⟨run, rest, rfl, h, h'⟩; exact .star h h'

theorem matches_empty_iff (hok : ok [] []) :
    Matches ok p [] ↔ ∀ t ∈ p, t = .star := by
  induction p with
  | nil => simp [matches_nil_iff]
  | cons t p ih =>
    rw [List.forall_mem_cons, ← ih]
    cases t with
    | star =>
      rw [matches_star_iff]
      constructor
      · rintro ⟨run, rest, he, -, h⟩
        obtain ⟨-, rfl⟩ := List.append_eq_nil_iff.1 he.symm
        exact ⟨rfl, h⟩
      · rintro ⟨-, h⟩; exact ⟨[], [], rfl, hok, h⟩
    | any => exact ⟨nofun, fun h => nomatch h.1⟩
    | lit b => exact ⟨nofun, fun h => nomatch h.1⟩

/-! ### Comparing restrictions -/

theorem Matches.mono (hok : ∀ run rest, ok run rest → ok' run rest) (h : Matches ok p s) :
    Matches ok' p s := by
  induction h with
  | nil => exact .nil
  | star hr _ ih => exact .star (hok _ _ hr) ih
  | any _ ih => exact .any ih
  | lit _ ih => exact .lit ih

theorem Matches.free (h : Matches ok p s) : Matches Free p s := h.mono fun _ _ _ => trivial

theorem Pinned.of_not_mem {run rest : List α} (h : a ∉ run ++ rest) : Pinned a run rest :=
  fun hh => absurd (List.mem_of_mem_head? hh) h

/-- On a string without `a` no star stands before `a`. -/
theorem matches_pinned_iff_free (ha : a ∉ s) : Matches (Pinned a) p s ↔ Matches Free p s := by
  refine ⟨Matches.free, fun h => ?_⟩
  induction h with
  | nil => exact .nil
  | star _ _ ih =>
    exact .star (.of_not_mem ha) (ih fun h => ha (List.mem_append_right _ h))
  | any _ ih => exact .any (ih fun h => ha (List.mem_cons_of_mem _ h))
  | lit _ ih => exact .lit (ih fun h => ha (List.mem_cons_of_mem _ h))

/-! ### Matching at positions of a fixed string -/

theorem pinned_nil (a : α) : Pinned a [] [] := fun h => by simp at h

theorem matches_pinned_star_cons_self :
    Matches (Pinned a) (.star :: p) (a :: s) ↔ Matches (Pinned a) p s := by
  rw [matches_star_iff]
  constructor
  · rintro ⟨run, rest, he, hpin, h⟩
    obtain rfl := hpin (by rw [← he]; rfl)
    obtain rfl : s = rest := by simpa using he
    exact h
  · exact fun h => ⟨[a], s, rfl, fun _ => rfl, h⟩

theorem matches_pinned_star_drop_iff {n : ℕ} (h : (s.drop n).head? ≠ some a) (hn : n ≤ s.length) :
    Matches (Pinned a) (.star :: p) (s.drop n) ↔
      ∃ m, n ≤ m ∧ m ≤ s.length ∧ Matches (Pinned a) p (s.drop m) := by
  rw [matches_star_iff]
  constructor
  · rintro ⟨run, rest, he, -, h'⟩
    have hlen : run.length + rest.length = s.length - n := by
      rw [← List.length_append, ← he, List.length_drop]
    refine ⟨n + run.length, by omega, by omega, ?_⟩
    rwa [← List.drop_drop, he, List.drop_left]
  · rintro ⟨m, hm, -, h'⟩
    have hrun : (s.drop n).take (m - n) ++ s.drop m = s.drop n := by
      rw [show s.drop m = (s.drop n).drop (m - n) by rw [List.drop_drop]; congr 1; omega,
        List.take_append_drop]
    refine ⟨(s.drop n).take (m - n), s.drop m, hrun.symm, fun hh => absurd hh ?_, h'⟩
    rwa [hrun]

/-- `t` can take the symbol `x` by itself, a star doing so only before the pinned symbol. -/
def Tok.Takes (a : α) : Tok α → α → Prop
  | .star, x => x = a
  | .any, _ => True
  | .lit b, x => b = x

theorem matches_cons_of_takes {t : Tok α} {x : α} (ht : t.Takes a x) :
    Matches (Pinned a) (t :: p) (x :: s) ↔ Matches (Pinned a) p s := by
  cases t with
  | star => obtain rfl : x = a := ht; exact matches_pinned_star_cons_self
  | any => exact matches_any_cons_iff
  | lit b => obtain rfl : b = x := ht; simp [matches_lit_cons_iff]

theorem Matches.takes {t : Tok α} {x : α} (h : Matches (Pinned a) (t :: p) (x :: s))
    (hroam : t = .star → x = a) : t.Takes a x := by
  cases t with
  | star => exact hroam rfl
  | any => trivial
  | lit b => exact (matches_lit_cons_iff.1 h).1

theorem lt_and_eq_of_drop_eq_cons {n : ℕ} {x : α} {xs : List α} (h : s.drop n = x :: xs) :
    n < s.length ∧ xs = s.drop (n + 1) := by
  constructor
  · by_contra hge
    rw [List.drop_eq_nil_of_le (by omega)] at h
    cases h
  · rw [← List.drop_drop, h, List.drop_one, List.tail_cons]

/-- **Exchange.**  Let token `t` take the symbol at position `n`.  If `t` and the rest of the
pattern match from `n` or any later position, the rest matches from `n + 1` or a later one. -/
theorem Matches.advance {t : Tok α} {n m : ℕ} {x : α} (hx : s[n]? = some x) (ht : t.Takes a x)
    (hnm : n ≤ m) (hm : m ≤ s.length) (h : Matches (Pinned a) (t :: p) (s.drop m)) :
    ∃ k, n + 1 ≤ k ∧ k ≤ s.length ∧ Matches (Pinned a) p (s.drop k) := by
  by_cases hroam : t = .star ∧ (s.drop m).head? ≠ some a
  · obtain ⟨rfl, hhead⟩ := hroam
    -- a star that may roam: it is not at `n`, where the pinned symbol stands
    have hne : n ≠ m := by
      rintro rfl
      obtain rfl : x = a := ht
      rw [List.head?_drop, hx] at hhead
      exact hhead rfl
    obtain ⟨k, hk, hk', h'⟩ := (matches_pinned_star_drop_iff hhead hm).1 h
    exact ⟨k, by omega, hk', h'⟩
  · -- at the later position, too, the token takes one symbol
    cases hd : s.drop m with
    | nil =>
      rw [hd] at h hroam
      have hstar := (matches_empty_iff (pinned_nil a)).1 h t List.mem_cons_self
      exact absurd ⟨hstar, by simp⟩ hroam
    | cons y ys =>
      obtain ⟨hlt, rfl⟩ := lt_and_eq_of_drop_eq_cons hd
      rw [hd] at h hroam
      have htake : t.Takes a y := h.takes fun hstar => by simpa [hstar] using hroam
      exact ⟨m + 1, by omega, hlt, (matches_cons_of_takes htake).1 h⟩

end Glob

end Pfind
