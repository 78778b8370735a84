import Pfind.Cli.Basic
import Pfind.Glob.Gaps
import Pfind.Process.GlobMatch
import Pfind.Walker.Basic

/-!
# The two matchers of the walker

Directories are skipped by a test of its own (`should_skip_dir_bytes`), and names are matched by
`glob_match`.  A pattern without wildcards, or with a star in front and nowhere else, means the same
to both.

* `skipMatches_iff` : what the test for one pattern decides.
* `shouldSkipDirBytes_iff_globMatch` : **a directory is skipped if and only if `glob_match` accepts
  its name for one of the patterns.**
* `suffixPattern_defaultSkips` : the patterns that are skipped by default are of this kind.
-/

namespace Pfind

open Glob

/-- The pattern has no wildcards, except that its first byte may be a star. -/
def SuffixPattern (pat : Bytes) : Prop := byte '?' ∉ pat ∧ byte '*' ∉ pat.tail

instance (pat : Bytes) : Decidable (SuffixPattern pat) := inferInstanceAs (Decidable (_ ∧ _))

variable {pat suffix name : Bytes}

/-! ### The test for one pattern -/

/-- **What the test for one pattern decides.** -/
theorem skipMatches_iff : skipMatches pat name = true ↔
    pat = name ∨ ∃ suffix, pat = byte '*' :: suffix ∧ suffix <:+ name := by
  have hdrop : ∀ suffix : Bytes, suffix.length ≤ name.length ∧
      name.drop (name.length - suffix.length) = suffix ↔ suffix <:+ name := by
    intro suffix
    rw [List.suffix_iff_eq_drop, eq_comm (a := suffix)]
    refine ⟨And.right, fun h => ⟨?_, h⟩⟩
    rw [← h, List.length_drop]
    omega
  cases pat with
  | nil => simp [skipMatches]
  | cons c suffix =>
    simp only [skipMatches, Bool.or_eq_true, Bool.and_eq_true, beq_iff_eq, decide_eq_true_eq, hdrop,
      List.cons.injEq]
    constructor
    · rintro (h | ⟨hc, h⟩)
      · exact Or.inl h
      · exact Or.inr ⟨suffix, ⟨hc, rfl⟩, h⟩
    · rintro (h | ⟨_, ⟨hc, rfl⟩, h⟩)
      · exact Or.inl h
      · exact Or.inr ⟨hc, h⟩

/-! ### The language of a pattern of this kind -/

theorem toks_literal (hany : byte '?' ∉ pat) (hstar : byte '*' ∉ pat) :
    toks pat = pat.map .lit := by
  refine List.map_congr_left fun b hb => ?_
  rw [tok, if_neg (ne_of_mem_of_not_mem hb hstar), if_neg (ne_of_mem_of_not_mem hb hany)]

theorem globSpec_literal_iff (hany : byte '?' ∉ pat) (hstar : byte '*' ∉ pat) :
    GlobSpec pat name ↔ pat = name := by
  have h := matches_map_lit_append_iff (s := name) (w := pat) (p := [])
  rw [List.append_nil] at h
  rw [GlobSpec, toks_literal hany hstar, h]
  simp [matches_nil_iff, eq_comm]

theorem globSpec_star_iff (hany : byte '?' ∉ suffix) (hstar : byte '*' ∉ suffix) :
    GlobSpec (byte '*' :: suffix) name ↔ suffix <:+ name := by
  show Matches Free (.star :: toks suffix) name ↔ _
  rw [matches_star_iff]
  constructor
  · rintro ⟨run, rest, hs, -, h⟩
    obtain rfl := (globSpec_literal_iff hany hstar).1 h
    exact ⟨run, hs.symm⟩
  · rintro ⟨run, hs⟩
    exact ⟨run, suffix, hs.symm, trivial, (globSpec_literal_iff hany hstar).2 rfl⟩

theorem skipMatches_iff_globMatch (hpat : SuffixPattern pat) (hname : byte '*' ∉ name) :
    skipMatches pat name = true ↔ globMatch pat name = true := by
  obtain ⟨hany, htail⟩ := hpat
  rw [skipMatches_iff, globMatch_of_not_mem hname]
  cases pat with
  | nil => simp [globSpec_literal_iff hany htail]
  | cons c suffix =>
    have hany' : byte '?' ∉ suffix := fun h => hany (List.mem_cons_of_mem _ h)
    by_cases hc : c = byte '*'
    · subst hc
      rw [globSpec_star_iff hany' htail]
      constructor
      · rintro (h | ⟨_, h, hsuf⟩)
        · exact absurd (h ▸ List.mem_cons_self) hname
        · obtain rfl := (List.cons_eq_cons.1 h).2
          exact hsuf
      · exact fun h => Or.inr ⟨suffix, rfl, h⟩
    · have hstar : byte '*' ∉ c :: suffix := by
        rw [List.mem_cons, not_or]
        exact ⟨Ne.symm hc, htail⟩
      rw [globSpec_literal_iff hany hstar]
      refine or_iff_left ?_
      rintro ⟨_, h, -⟩
      exact hc (List.cons_eq_cons.1 h).1

/-! ### The list of patterns -/

/-- **The two matchers agree**: a directory is skipped if and only if `glob_match` accepts its name
for one of the patterns. -/
theorem shouldSkipDirBytes_iff_globMatch (filter : FilterConfig) (name : Bytes)
    (hpat : ∀ p ∈ filter.skipDirs, byte '?' ∉ asBytes p ∧ byte '*' ∉ (asBytes p).tail)
    (hname : byte '*' ∉ name) :
    shouldSkipDirBytes name filter = true ↔
      ∃ p ∈ filter.skipDirs, globMatch (asBytes p) name = true := by
  have hany : shouldSkipDirBytes name filter =
      filter.skipDirs.any fun skip => skipMatches (asBytes skip) name := by
    unfold shouldSkipDirBytes
    cases filter.skipDirs <;> rfl
  rw [hany, List.any_eq_true]
  exact exists_congr fun p => and_congr_right fun hp =>
    skipMatches_iff_globMatch (hpat p hp) hname

theorem suffixPattern_defaultSkips : ∀ p ∈ Cli.defaultSkips, SuffixPattern (asBytes p) := by
  decide

/-- The default patterns and the directory `egg-info.egg-info`, of which the suffix `.egg-info` has
a part in front, too. -/
theorem shouldSkipDirBytes_egg_info :
    shouldSkipDirBytes (asBytes "egg-info.egg-info")
        ⟨[], Cli.defaultSkips, none, none, none, false⟩ = true ↔
      ∃ p ∈ Cli.defaultSkips, globMatch (asBytes p) (asBytes "egg-info.egg-info") = true :=
  shouldSkipDirBytes_iff_globMatch ⟨[], Cli.defaultSkips, none, none, none, false⟩
    (asBytes "egg-info.egg-info") suffixPattern_defaultSkips (by decide)

end Pfind
