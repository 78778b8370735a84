import Mathlib.Data.List.TakeWhile
import Mathlib.Tactic.Ring
import Pfind.Glob.Language
import Pfind.Process.Basic

/-!
# What `glob_match` decides

The documented language of a pattern is `GlobSpec` : a `*` takes any run of bytes, a `?` any one
byte, every other byte itself.

* `globLoop_isSome` : the loop ends within `(|pat| + 1) * (|s| + 1)` iterations.
* `globMatch_iff` : **the language of the code.**  `glob_match` accepts exactly the names that
  match with every star that stands before a `*` byte of the name taking this one byte.  The
  first test of an iteration compares the pattern byte with the name byte, so that a star never
  gets to act as a star where the name has a `*`.
* `globMatch_sound_complete` : **every name accepted matches, and on names without a `*` byte every
  name that matches is accepted**, although the loop remembers the last star only.
* `globMatch_correct_iff` : in general the answer is the documented one unless the name matches, but
  not in this way.

The proof follows the loop with `GlobState.Answer`, what the loop still has to find out: whether
the current attempt succeeds, or one that gives the remembered star a longer run.  Forgetting an
earlier star is harmless by the exchange lemma `Glob.Matches.advance`, applied along the symbols
that the current attempt has taken since the last star (`Aligned`).
-/

namespace Pfind

open Glob

/-- The token that a pattern byte stands for. -/
def tok (b : UInt8) : Tok UInt8 :=
  if b = byte '*' then .star else if b = byte '?' then .any else .lit b

/-- The tokens of a pattern. -/
def toks (pat : Bytes) : List (Tok UInt8) := pat.map tok

/-- The documented language: `*` any run of bytes, `?` any one byte, other bytes themselves. -/
def GlobSpec (pat s : Bytes) : Prop := Matches Free (toks pat) s

/-- As `GlobSpec`, but a star that stands before a `*` byte of the name takes this byte. -/
def GlobPinned (pat s : Bytes) : Prop := Matches (Pinned (byte '*')) (toks pat) s

variable {pat s : Bytes} {st st' : GlobState}

theorem takes_tok_iff {c x : UInt8} :
    (tok c).Takes (byte '*') x ↔ c = byte '?' ∨ c = x := by
  unfold tok
  split_ifs with h1 h2
  · subst h1
    simp only [Tok.Takes, show (byte '*' = byte '?') ↔ False by decide, false_or, eq_comm]
  · simp [Tok.Takes, h2]
  · simp [Tok.Takes, h2]

theorem takes_of_test (h : pat[st.pi]? = some (byte '?') ∨ pat[st.pi]? = s[st.si]?)
    {c x : UInt8} (hc : pat[st.pi]? = some c) (hx : s[st.si]? = some x) :
    (tok c).Takes (byte '*') x := by
  rw [hc, hx, Option.some.injEq, Option.some.injEq] at h
  exact takes_tok_iff.2 h

/-! ### The invariant of the loop -/

/-- Since the star at `sp`, whose run ends at `m`, the bytes of the pattern up to `pi` have
taken those of the name up to `si`, one by one. -/
def Aligned (pat s : Bytes) (sp m pi si : ℕ) : Prop :=
  pi = sp + 1 + (si - m) ∧
    ∀ k, m + k < si → ∃ c x, pat[sp + 1 + k]? = some c ∧ s[m + k]? = some x ∧
      (tok c).Takes (byte '*') x

/-- The invariant of the main loop: positions stay in range, and the remembered star is a star
behind which pattern and name are aligned. -/
structure GlobInv (pat s : Bytes) (st : GlobState) : Prop where
  pi_le : st.pi ≤ pat.length
  si_le : st.si ≤ s.length
  matchSi_le : st.matchSi ≤ st.si
  star_lt : ∀ sp, st.star = some sp → sp < st.pi
  star_eq : ∀ sp, st.star = some sp → pat[sp]? = some (byte '*')
  aligned : ∀ sp, st.star = some sp → Aligned pat s sp st.matchSi st.pi st.si

theorem GlobInv.init (pat s : Bytes) : GlobInv pat s .init where
  pi_le := Nat.zero_le _
  si_le := Nat.zero_le _
  matchSi_le := Nat.zero_le _
  star_lt := by simp [GlobState.init]
  star_eq := by simp [GlobState.init]
  aligned := by simp [GlobState.init]

/-- The three ways in which an iteration goes on. -/
inductive GlobCases (pat s : Bytes) (st : GlobState) : GlobState → Prop
  /-- The pattern byte takes the name byte. -/
  | take {c x : UInt8} : pat[st.pi]? = some c → s[st.si]? = some x →
      (tok c).Takes (byte '*') x →
      GlobCases pat s st { st with pi := st.pi + 1, si := st.si + 1 }
  /-- A star of the pattern, before a byte other than `*`. -/
  | newStar {x : UInt8} : pat[st.pi]? = some (byte '*') → s[st.si]? = some x → x ≠ byte '*' →
      GlobCases pat s st { st with star := some st.pi, matchSi := st.si, pi := st.pi + 1 }
  /-- Neither: back to the last star, with one more byte in its run. -/
  | back {sp : ℕ} {x : UInt8} : st.star = some sp → s[st.si]? = some x →
      (∀ c, pat[st.pi]? = some c → ¬ (tok c).Takes (byte '*') x ∧ c ≠ byte '*') →
      GlobCases pat s st
        { st with pi := sp + 1, matchSi := st.matchSi + 1, si := st.matchSi + 1 }

theorem mismatch_of_tests {x : UInt8} (hx : s[st.si]? = some x)
    (h1 : ¬ (st.pi < pat.length ∧ (pat[st.pi]? = some (byte '?') ∨ pat[st.pi]? = s[st.si]?)))
    (h2 : ¬ (st.pi < pat.length ∧ pat[st.pi]? = some (byte '*'))) :
    ∀ c, pat[st.pi]? = some c → ¬ (tok c).Takes (byte '*') x ∧ c ≠ byte '*' := by
  intro c hc
  have hlt : st.pi < pat.length := (List.getElem?_eq_some_iff.1 hc).1
  rw [hc, hx] at h1
  rw [hc] at h2
  refine ⟨fun ht => h1 ⟨hlt, ?_⟩, fun he => h2 ⟨hlt, by rw [he]⟩⟩
  simpa using takes_tok_iff.1 ht

theorem globStep_some (hsi : st.si < s.length) (h : globStep pat s st = some st') :
    GlobCases pat s st st' := by
  have hx : s[st.si]? = some s[st.si] := List.getElem?_eq_getElem hsi
  unfold globStep at h
  split_ifs at h with h1 h2
  · cases h
    have hc : pat[st.pi]? = some pat[st.pi] := List.getElem?_eq_getElem h1.1
    exact .take hc hx (takes_of_test h1.2 hc hx)
  · cases h
    refine .newStar h2.2 hx fun he => h1 ⟨h2.1, Or.inr ?_⟩
    rw [h2.2, hx, he]
  · split at h
    · rename_i sp hsp
      cases h
      exact .back hsp hx (mismatch_of_tests hx h1 h2)
    · cases h

theorem globStep_none (hsi : st.si < s.length) (h : globStep pat s st = none) :
    st.star = none ∧ ∃ x, s[st.si]? = some x ∧
      ∀ c, pat[st.pi]? = some c → ¬ (tok c).Takes (byte '*') x ∧ c ≠ byte '*' := by
  have hx : s[st.si]? = some s[st.si] := List.getElem?_eq_getElem hsi
  unfold globStep at h
  split_ifs at h with h1 h2
  split at h
  · cases h
  · rename_i hs
    exact ⟨hs, _, hx, mismatch_of_tests hx h1 h2⟩

theorem Aligned.start (pat s : Bytes) (sp m : ℕ) : Aligned pat s sp m (sp + 1) m :=
  ⟨by omega, fun k hk => by omega⟩

theorem Aligned.extend {sp m pi si : ℕ} (h : Aligned pat s sp m pi si) (hm : m ≤ si)
    {c x : UInt8} (hc : pat[pi]? = some c) (hx : s[si]? = some x)
    (ht : (tok c).Takes (byte '*') x) : Aligned pat s sp m (pi + 1) (si + 1) := by
  obtain ⟨hpi, hk⟩ := h
  refine ⟨by omega, fun k hlt => ?_⟩
  by_cases hlast : m + k = si
  · refine ⟨c, x, ?_, by rw [hlast]; exact hx, ht⟩
    rw [show sp + 1 + k = pi by omega]
    exact hc
  · exact hk k (by omega)

theorem GlobCases.inv (hst : GlobCases pat s st st') (h : GlobInv pat s st) :
    GlobInv pat s st' := by
  have h1 := h.pi_le
  have h2 := h.matchSi_le
  cases hst with
  | @take c x hc hx ht =>
    have hpi : st.pi < pat.length := (List.getElem?_eq_some_iff.1 hc).1
    have hsi : st.si < s.length := (List.getElem?_eq_some_iff.1 hx).1
    refine ⟨by simp only; omega, by simp only; omega, by simp only; omega, fun sp hsp => ?_,
      fun sp hsp => h.star_eq sp hsp, fun sp hsp => ?_⟩
    · have := h.star_lt sp hsp; simp only; omega
    · exact (h.aligned sp hsp).extend h2 hc hx ht
  | @newStar x hc hx hne =>
    have hpi : st.pi < pat.length := (List.getElem?_eq_some_iff.1 hc).1
    refine ⟨by simp only; omega, h.si_le, by simp, fun sp hsp => ?_, fun sp hsp => ?_,
      fun sp hsp => ?_⟩ <;> obtain rfl : st.pi = sp := by simpa using hsp
    · simp
    · exact hc
    · exact .start pat s st.pi st.si
  | @back sp x hsp hx hmis =>
    have hsi : st.si < s.length := (List.getElem?_eq_some_iff.1 hx).1
    have hlt := h.star_lt sp hsp
    refine ⟨by simp only; omega, by simp only; omega, by simp, fun sp' hsp' => ?_,
      fun sp' hsp' => h.star_eq sp' hsp', fun sp' hsp' => ?_⟩ <;>
      obtain rfl : sp = sp' := by simpa [hsp] using hsp'
    · simp
    · exact .start pat s sp (st.matchSi + 1)

/-! ### Termination -/

/-- A number that every iteration decreases: the bytes that the last star has not taken count
for a whole pattern each, the pattern bytes still to be read for one. -/
def globMeasure (pat s : Bytes) (st : GlobState) : ℕ :=
  (s.length - st.matchSi) * (pat.length + 1) + (pat.length - st.pi)

theorem GlobCases.measure_lt (hst : GlobCases pat s st st') (h : GlobInv pat s st) :
    globMeasure pat s st' < globMeasure pat s st := by
  have h2 := h.matchSi_le
  unfold globMeasure
  cases hst with
  | @take c x hc hx ht =>
    have hpi : st.pi < pat.length := (List.getElem?_eq_some_iff.1 hc).1
    simp only
    omega
  | @newStar x hc hx hne =>
    have hpi : st.pi < pat.length := (List.getElem?_eq_some_iff.1 hc).1
    have hmul : (s.length - st.si) * (pat.length + 1) ≤
        (s.length - st.matchSi) * (pat.length + 1) := Nat.mul_le_mul_right _ (by omega)
    simp only
    omega
  | @back sp x hsp hx hmis =>
    have hsi : st.si < s.length := (List.getElem?_eq_some_iff.1 hx).1
    obtain ⟨d, hd⟩ : ∃ d, s.length - st.matchSi = d + 1 := ⟨s.length - st.matchSi - 1, by omega⟩
    rw [show s.length - (st.matchSi + 1) = d by omega, hd, Nat.succ_mul]
    omega

theorem globLoop_isSome_of_lt (fuel : ℕ) (h : GlobInv pat s st)
    (hf : globMeasure pat s st < fuel) : (globLoop pat s fuel st).isSome := by
  induction fuel generalizing st with
  | zero => omega
  | succ fuel ih =>
    unfold globLoop
    split_ifs with hsi
    · cases hs : globStep pat s st with
      | none => rfl
      | some st' =>
        have hcases := globStep_some hsi hs
        have := hcases.measure_lt h
        exact ih (hcases.inv h) (by omega)
    · rfl

theorem globMeasure_init (pat s : Bytes) :
    globMeasure pat s .init < (pat.length + 1) * (s.length + 1) := by
  have hmul : (pat.length + 1) * (s.length + 1) =
      s.length * (pat.length + 1) + (pat.length + 1) := by ring
  simp only [globMeasure, GlobState.init, Nat.sub_zero]
  omega

/-- **The loop ends** within `(|pat| + 1) * (|s| + 1)` iterations. -/
theorem globLoop_isSome (pat s : Bytes) :
    (globLoop pat s ((pat.length + 1) * (s.length + 1)) .init).isSome :=
  globLoop_isSome_of_lt _ (.init pat s) (globMeasure_init pat s)

/-! ### The language of the loop -/

/-- What the loop still has to find out: the current attempt succeeds, or one that gives the
remembered star a longer run. -/
def GlobState.Answer (pat s : Bytes) (st : GlobState) : Prop :=
  GlobPinned (pat.drop st.pi) (s.drop st.si) ∨
    ∃ sp, st.star = some sp ∧ ∃ m, st.matchSi < m ∧ m ≤ s.length ∧
      GlobPinned (pat.drop (sp + 1)) (s.drop m)

theorem toks_drop {i : ℕ} {c : UInt8} (hc : pat[i]? = some c) :
    toks (pat.drop i) = tok c :: toks (pat.drop (i + 1)) := by
  obtain ⟨hi, rfl⟩ := List.getElem?_eq_some_iff.1 hc
  rw [List.drop_eq_getElem_cons hi, toks, List.map_cons, toks]

theorem drop_cons {i : ℕ} {x : UInt8} (hx : s[i]? = some x) : s.drop i = x :: s.drop (i + 1) := by
  obtain ⟨hi, rfl⟩ := List.getElem?_eq_some_iff.1 hx
  exact List.drop_eq_getElem_cons hi

/-- Along an alignment, a match that gives the star a longer run is a match from the current
position of the pattern, at a current or later position of the name. -/
theorem Aligned.exchange {sp m pi si : ℕ} (h : Aligned pat s sp m pi si) (hm : m ≤ si)
    {m' : ℕ} (hlt : m < m') (hle : m' ≤ s.length)
    (hmatch : GlobPinned (pat.drop (sp + 1)) (s.drop m')) :
    ∃ k, si ≤ k ∧ k ≤ s.length ∧ GlobPinned (pat.drop pi) (s.drop k) := by
  obtain ⟨hpi, hk⟩ := h
  -- induction on the number of bytes taken since the star
  have key : ∀ d, m + d ≤ si → ∃ k, m + d ≤ k ∧ k ≤ s.length ∧
      GlobPinned (pat.drop (sp + 1 + d)) (s.drop k) := by
    intro d
    induction d with
    | zero => exact fun _ => ⟨m', by omega, hle, hmatch⟩
    | succ d ih =>
      intro hd
      obtain ⟨k, hk1, hk2, hk3⟩ := ih (by omega)
      obtain ⟨c, x, hc, hx, ht⟩ := hk d (by omega)
      unfold GlobPinned at hk3
      rw [toks_drop hc] at hk3
      obtain ⟨k', hk1', hk2', hk3'⟩ := hk3.advance hx ht hk1 hk2
      exact ⟨k', by omega, hk2', hk3'⟩
  obtain ⟨k, hk1, hk2, hk3⟩ := key (si - m) (by omega)
  rw [hpi]
  exact ⟨k, by omega, hk2, hk3⟩

theorem GlobInv.exists_of_answer (h : GlobInv pat s st) (ha : st.Answer pat s) :
    ∃ k, st.si ≤ k ∧ k ≤ s.length ∧ GlobPinned (pat.drop st.pi) (s.drop k) := by
  rcases ha with hp | ⟨sp, hsp, m, hm, hle, hp⟩
  · exact ⟨st.si, le_rfl, h.si_le, hp⟩
  · exact (h.aligned sp hsp).exchange h.matchSi_le hm hle hp

/-- Right behind a star, the loop looks for a run of this star. -/
theorem GlobState.answer_behind_star {sp : ℕ} (hstar : st.star = some sp) (hpi : st.pi = sp + 1)
    (hm : st.matchSi = st.si) (hle : st.si ≤ s.length) :
    st.Answer pat s ↔
      ∃ m, st.si ≤ m ∧ m ≤ s.length ∧ GlobPinned (pat.drop (sp + 1)) (s.drop m) := by
  unfold Answer
  rw [hpi, hm]
  constructor
  · rintro (hp | ⟨sp', hsp', m, hlt, hle', hp⟩)
    · exact ⟨st.si, le_rfl, hle, hp⟩
    · obtain rfl : sp = sp' := by simpa [hstar] using hsp'
      exact ⟨m, hlt.le, hle', hp⟩
  · rintro ⟨m, hm, hle', hp⟩
    rcases Nat.eq_or_lt_of_le hm with rfl | hlt
    · exact Or.inl hp
    · exact Or.inr ⟨sp, hstar, m, hlt, hle', hp⟩

theorem exists_of_pinned_star {i n : ℕ} (hc : pat[i]? = some (byte '*')) (hle : n ≤ s.length)
    (hp : GlobPinned (pat.drop i) (s.drop n)) :
    ∃ m, n ≤ m ∧ m ≤ s.length ∧ GlobPinned (pat.drop (i + 1)) (s.drop m) := by
  unfold GlobPinned at hp
  rw [toks_drop hc, show tok (byte '*') = .star by decide] at hp
  by_cases hnx : (s.drop n).head? = some (byte '*')
  · rw [List.head?_drop] at hnx
    rw [drop_cons hnx] at hp
    have hlt : n < s.length := (List.getElem?_eq_some_iff.1 hnx).1
    exact ⟨n + 1, by omega, by omega, matches_pinned_star_cons_self.1 hp⟩
  · exact (matches_pinned_star_drop_iff hnx hle).1 hp

/-- A star that does not stand before a `*` byte may leave whatever the rest matches. -/
theorem pinned_star_of_exists {i n : ℕ} {x : UInt8} (hc : pat[i]? = some (byte '*'))
    (hx : s[n]? = some x) (hne : x ≠ byte '*')
    (h : ∃ m, n ≤ m ∧ m ≤ s.length ∧ GlobPinned (pat.drop (i + 1)) (s.drop m)) :
    GlobPinned (pat.drop i) (s.drop n) := by
  have hlt : n < s.length := (List.getElem?_eq_some_iff.1 hx).1
  have hhead : (s.drop n).head? ≠ some (byte '*') := by
    rw [List.head?_drop, hx]; simpa using hne
  unfold GlobPinned
  rw [toks_drop hc, show tok (byte '*') = .star by decide]
  exact (matches_pinned_star_drop_iff hhead hlt.le).2 h

theorem not_pinned_of_mismatch {i j : ℕ} {x : UInt8} (hx : s[j]? = some x)
    (hmis : ∀ c, pat[i]? = some c → ¬ (tok c).Takes (byte '*') x ∧ c ≠ byte '*') :
    ¬ GlobPinned (pat.drop i) (s.drop j) := by
  intro h
  unfold GlobPinned at h
  rw [drop_cons hx] at h
  cases hc : pat[i]? with
  | none =>
    rw [List.drop_eq_nil_of_le (List.getElem?_eq_none_iff.1 hc)] at h
    cases h
  | some c =>
    obtain ⟨hnt, hns⟩ := hmis c hc
    rw [toks_drop hc] at h
    rw [takes_tok_iff, not_or] at hnt
    simp only [tok, hns, hnt.1, if_false] at h
    exact hnt.2 (matches_lit_cons_iff.1 h).1

/-- An iteration does not change the answer. -/
theorem GlobCases.answer_iff (hst : GlobCases pat s st st') (h : GlobInv pat s st) :
    st.Answer pat s ↔ st'.Answer pat s := by
  cases hst with
  | @take c x hc hx ht =>
    have : GlobPinned (pat.drop st.pi) (s.drop st.si) ↔
        GlobPinned (pat.drop (st.pi + 1)) (s.drop (st.si + 1)) := by
      unfold GlobPinned
      rw [toks_drop hc, drop_cons hx]
      exact matches_cons_of_takes ht
    simp only [GlobState.Answer, this]
  | @newStar x hc hx hne =>
    refine Iff.trans ?_ (Iff.symm (GlobState.answer_behind_star rfl rfl rfl h.si_le))
    constructor
    · intro ha
      obtain ⟨k, hk, hle, hp⟩ := h.exists_of_answer ha
      obtain ⟨m, hm, hle', hp'⟩ := exists_of_pinned_star hc hle hp
      exact ⟨m, hk.trans hm, hle', hp'⟩
    · intro hex
      exact Or.inl (pinned_star_of_exists hc hx hne hex)
  | @back sp x hsp hx hmis =>
    have hsi : st.si < s.length := (List.getElem?_eq_some_iff.1 hx).1
    have hle : st.matchSi + 1 ≤ s.length := Nat.lt_of_le_of_lt h.matchSi_le hsi
    refine Iff.trans ?_ (Iff.symm (GlobState.answer_behind_star hsp rfl rfl hle))
    constructor
    · rintro (hp | ⟨sp', hsp', hex⟩)
      · exact absurd hp (not_pinned_of_mismatch hx hmis)
      · obtain rfl : sp = sp' := by simpa [hsp] using hsp'
        exact hex
    · intro hex
      exact Or.inr ⟨sp, hsp, hex⟩

theorem globTail_iff (hpi : st.pi ≤ pat.length) :
    globTail pat st.pi = true ↔ GlobPinned (pat.drop st.pi) [] := by
  unfold globTail GlobPinned
  rw [matches_empty_iff (pinned_nil _), toks, List.forall_mem_map, beq_iff_eq]
  have hlen : (pat.drop st.pi).length = pat.length - st.pi := List.length_drop
  have hstar : ∀ b : UInt8, tok b = .star ↔ b = byte '*' := by
    intro b; unfold tok; split_ifs with h1 h2 <;> simp [h1]
  constructor
  · intro h b hb
    have htake : (pat.drop st.pi).takeWhile (· == byte '*') = pat.drop st.pi :=
      (List.takeWhile_prefix _).eq_of_length (by omega)
    have := List.mem_takeWhile_imp (htake ▸ hb)
    exact (hstar b).2 (by simpa using this)
  · intro h
    have htake : (pat.drop st.pi).takeWhile (· == byte '*') = pat.drop st.pi :=
      List.takeWhile_eq_self_iff.2 fun b hb => by simpa using (hstar b).1 (h b hb)
    rw [htake, hlen]
    omega

theorem answer_of_end (h : GlobInv pat s st) (hend : ¬ st.si < s.length) :
    globTail pat st.pi = true ↔ st.Answer pat s := by
  have hsi := h.si_le
  have hdrop : ∀ {k : ℕ}, st.si ≤ k → s.drop k = [] := fun hk =>
    List.drop_eq_nil_of_le (by omega)
  rw [globTail_iff h.pi_le]
  constructor
  · intro hp
    exact Or.inl (by rwa [hdrop le_rfl])
  · intro ha
    obtain ⟨k, hk, -, hp⟩ := h.exists_of_answer ha
    rwa [hdrop hk] at hp

theorem globLoop_answer (fuel : ℕ) (h : GlobInv pat s st) {b : Bool}
    (hb : globLoop pat s fuel st = some b) : b = true ↔ st.Answer pat s := by
  induction fuel generalizing st with
  | zero =>
    unfold globLoop at hb
    split_ifs at hb with hsi
    cases hb
    exact answer_of_end h hsi
  | succ fuel ih =>
    unfold globLoop at hb
    split_ifs at hb with hsi
    · cases hs : globStep pat s st with
      | none =>
        rw [hs] at hb
        cases hb
        obtain ⟨hstar, x, hx, hmis⟩ := globStep_none hsi hs
        refine iff_of_false Bool.false_ne_true ?_
        rintro (hp | ⟨sp, hsp, -⟩)
        · exact not_pinned_of_mismatch hx hmis hp
        · rw [hstar] at hsp; cases hsp
      | some st' =>
        rw [hs] at hb
        have hcases := globStep_some hsi hs
        rw [hcases.answer_iff h]
        exact ih (hcases.inv h) hb
    · cases hb
      exact answer_of_end h hsi

/-- **The language of the code**: `glob_match` accepts exactly the names that match with every
star that stands before a `*` byte taking this one byte. -/
theorem globMatch_iff (pat s : Bytes) : globMatch pat s = true ↔ GlobPinned pat s := by
  obtain ⟨b, hb⟩ := Option.isSome_iff_exists.1 (globLoop_isSome pat s)
  have h := globLoop_answer _ (.init pat s) hb
  rw [globMatch, hb, Option.getD_some, h]
  simp [GlobState.Answer, GlobState.init]

theorem globMatch_of_not_mem (h : byte '*' ∉ s) : globMatch pat s = true ↔ GlobSpec pat s :=
  (globMatch_iff pat s).trans (matches_pinned_iff_free h)

/-- **Backtracking to the last star only is sound, and complete on names without a `*` byte.** -/
theorem globMatch_sound_complete (pat s : Bytes) :
    (globMatch pat s = true → GlobSpec pat s) ∧
      (byte '*' ∉ s → GlobSpec pat s → globMatch pat s = true) := by
  refine ⟨fun h => ?_, fun hs h => (globMatch_of_not_mem hs).2 h⟩
  exact ((globMatch_iff pat s).1 h).free

/-- The star of `*b` has to give up its first attempt on `bab`. -/
theorem globMatch_sound_complete_bab :
    GlobSpec [byte '*', byte 'b'] [byte 'b', byte 'a', byte 'b'] ∧
      globMatch [byte '*', byte 'b'] [byte 'b', byte 'a', byte 'b'] = true := by
  have hspec : GlobSpec [byte '*', byte 'b'] ([byte 'b', byte 'a'] ++ [byte 'b']) :=
    .star trivial (.lit .nil)
  exact ⟨(globMatch_sound_complete _ _).1 (by decide),
    (globMatch_sound_complete _ _).2 (by decide) hspec⟩

/-- **When `glob_match` decides the documented language**: exactly when a name that matches
also matches with every star that stands before a `*` byte taking this one byte. -/
theorem globMatch_correct_iff (pat s : Bytes) :
    (globMatch pat s = true ↔ GlobSpec pat s) ↔ (GlobSpec pat s → GlobPinned pat s) := by
  rw [globMatch_iff]
  exact ⟨fun h => h.2, fun h => ⟨Matches.free, h⟩⟩

/-- The pattern `*` does not accept the name `*a`. -/
theorem globMatch_star_starA :
    ¬ (globMatch [byte '*'] [byte '*', byte 'a'] = true ↔
      GlobSpec [byte '*'] [byte '*', byte 'a']) := by
  have hno : globMatch [byte '*'] [byte '*', byte 'a'] = false := by decide
  have hyes : GlobSpec [byte '*'] [byte '*', byte 'a'] := by
    show Matches Free _ ([byte '*', byte 'a'] ++ [])
    exact .star trivial .nil
  simp [hno, hyes]

end Pfind
