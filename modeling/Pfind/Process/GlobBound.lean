import Pfind.LTS.Basic
import Pfind.Process.GlobMatch

/-!
# The iterations of `glob_match`

The main loop as a transition system (`globLts`), in which every step is an iteration after which
the loop goes on.  Neither index is a measure of its progress, since both go back when the last star
takes one byte more; `globMeasure` is.

* `globLoop_add` : the steps of a run are the recursive calls of `globLoop`.
* `globStep?_eq` : an iteration, which begins with bytes of the name left, indexes within the slices
  only.
* `globLoop_bounded` : **the loop ends within `(|pat| + 1) * (|s| + 1)` iterations, and every one of
  them begins with the indices in range**.
-/

namespace Pfind

/-- The iterations after which the main loop goes on. -/
def globLts (pat s : Bytes) : LTS GlobState Unit where
  step st _ st' := st.si < s.length ∧ globStep pat s st = some st'

/-- `globStep` with every index checked; `none` would be a panic. -/
def globStep? (pat s : Bytes) (st : GlobState) : Option (Option GlobState) := do
  let takes ←
    if st.pi < pat.length then do
      let c ← pat[st.pi]?
      if c = byte '?' then some true
      else do
        let x ← s[st.si]?
        some (c == x)
    else some false
  if takes then some (some { st with pi := st.pi + 1, si := st.si + 1 })
  else do
    let isStar ←
      if st.pi < pat.length then do
        let c ← pat[st.pi]?
        some (c == byte '*')
      else some false
    if isStar then some (some { st with star := some st.pi, matchSi := st.si, pi := st.pi + 1 })
    else some (st.star.map fun sp =>
      { st with pi := sp + 1, matchSi := st.matchSi + 1, si := st.matchSi + 1 })

variable {pat s : Bytes} {st st₀ : GlobState} {ls : List Unit}

/-- **An iteration indexes within the slices only.** -/
theorem globStep?_eq (hsi : st.si < s.length) : globStep? pat s st = some (globStep pat s st) := by
  have hx : s[st.si]? = some s[st.si] := List.getElem?_eq_getElem hsi
  unfold globStep? globStep
  by_cases hpi : st.pi < pat.length
  · have hc : pat[st.pi]? = some pat[st.pi] := List.getElem?_eq_getElem hpi
    rw [hc, hx]
    generalize pat[st.pi] = c
    generalize s[st.si] = x
    -- the branches, in the order in which an iteration tests for them
    by_cases hq : c = byte '?'
    · simp [hpi, hq]
    · by_cases heq : c = x
      · simp [hpi, heq]
      · by_cases hstar : c = byte '*'
        · subst hstar
          simp [hpi, hq, heq]
        · cases st.star <;> simp [hpi, hq, heq, hstar]
  · cases st.star <;> simp [hpi]

/-- The steps of a run are calls of `globLoop`, each with one iteration less to go. -/
theorem globLoop_add (h : (globLts pat s).Run st₀ ls st) (fuel : ℕ) :
    globLoop pat s (ls.length + fuel) st₀ = globLoop pat s fuel st := by
  induction h generalizing fuel with
  | nil => rw [List.length_nil, Nat.zero_add]
  | snoc hr hst ih =>
    obtain ⟨hsi, hstep⟩ := hst
    rw [List.length_append, List.length_singleton, Nat.add_assoc, ih, Nat.add_comm 1, globLoop,
      if_pos hsi, hstep]

theorem globInv_of_run (h : (globLts pat s).Run .init ls st) : GlobInv pat s st := by
  refine h.history (P := fun _ st => GlobInv pat s st) (.init pat s) ?_
  rintro _ st _ st' - hinv ⟨hsi, hstep⟩
  exact (globStep_some hsi hstep).inv hinv

theorem length_add_globMeasure_le (h : (globLts pat s).Run .init ls st) :
    ls.length + globMeasure pat s st ≤ globMeasure pat s .init := by
  refine h.length_add_le ?_
  rintro st _ st' ⟨_, hr⟩ ⟨hsi, hstep⟩
  exact (globStep_some hsi hstep).measure_lt (globInv_of_run hr)

/-- **The main loop ends within `(|pat| + 1) * (|s| + 1)` iterations.**  A run of `globLts` is what
the first `|ls|` iterations do.  At the beginning of each of them the position in the pattern is at
most its length, the one in the name is within the name, and the remembered star stands before the
position in the pattern; all indices are in range. -/
theorem globLoop_bounded (pat s : Bytes) :
    (globLoop pat s ((pat.length + 1) * (s.length + 1)) .init).isSome ∧
    ∀ (ls : List Unit) (st : GlobState), (globLts pat s).Run .init ls st →
      (∀ fuel, globLoop pat s (ls.length + fuel) .init = globLoop pat s fuel st) ∧
      ls.length < (pat.length + 1) * (s.length + 1) ∧
      (st.si < s.length →
        st.pi ≤ pat.length ∧ st.matchSi ≤ st.si ∧
        (∀ sp, st.star = some sp → sp < st.pi ∧ pat[sp]? = some (byte '*')) ∧
        globStep? pat s st = some (globStep pat s st)) := by
  refine ⟨globLoop_isSome pat s, fun ls st h => ⟨globLoop_add h, ?_, fun hsi => ?_⟩⟩
  · have hle := length_add_globMeasure_le h
    have hinit := globMeasure_init pat s
    omega
  · have hinv := globInv_of_run h
    exact ⟨hinv.pi_le, hinv.matchSi_le, fun sp hsp => ⟨hinv.star_lt sp hsp, hinv.star_eq sp hsp⟩,
      globStep?_eq hsi⟩

end Pfind
