import Mathlib.Data.Multiset.Bind
import Pfind.Scheduler.Output
import Pfind.Scheduler.Sequential

/-!
# What has been written, whatever happens

`Scheduler.Output` describes stdout as long as no write fails.  Here the write that fails and ends
the process is included.

* `exists_prefix_flatMap` : where a sequence of records may be cut.
* `exists_torn` : stdout consists of complete writes of complete records, and then perhaps of the
  bytes of the write that has failed.
* `stdout_records` : **the bytes on stdout are complete records of distinct matches of the
  traversal, and then, behind a failed write only, the beginning of the record of another one.**
-/

namespace Pfind

open Fs

/-- A prefix of a concatenation ends between two of its pieces, or inside one. -/
theorem exists_prefix_flatMap {α β : Type*} (f : α → List β) {pre : List β} {as : List α}
    (h : pre <+: as.flatMap f) : ∃ as' torn, as' <+: as ∧ pre = as'.flatMap f ++ torn ∧
      (torn = [] ∨ ∃ a, as' ++ [a] <+: as ∧ torn <+: f a) := by
  induction as generalizing pre with
  | nil => exact ⟨[], [], List.prefix_refl _, List.prefix_nil.1 h, Or.inl rfl⟩
  | cons a as ih =>
    rw [List.flatMap_cons] at h
    obtain ⟨t, ht⟩ := h
    rcases List.append_eq_append_iff.1 ht with ⟨bs, hbs, -⟩ | ⟨pre', rfl, hpre'⟩
    · exact ⟨[], pre, List.nil_prefix, rfl, Or.inr ⟨a, ⟨as, rfl⟩, ⟨bs, hbs.symm⟩⟩⟩
    · obtain ⟨as', torn, has', rfl, htorn⟩ := ih ⟨t, hpre'.symm⟩
      refine ⟨a :: as', torn, List.cons_prefix_cons.2 ⟨rfl, has'⟩, by simp, ?_⟩
      refine htorn.imp_right ?_
      rintro ⟨b, hb, ht⟩
      exact ⟨b, List.cons_prefix_cons.2 ⟨rfl, hb⟩, ht⟩

namespace Scheduler

variable {n : ℕ}

/-- The bytes on stdout. -/
def State.output (s : State n) : Bytes := s.stdout.flatMap Prod.snd

theorem flatMap_writes (S : Search) (chunks : List (Fin n × List Match)) :
    (chunks.map fun c => (c.1, S.records c.2)).flatMap Prod.snd =
      S.records (chunks.flatMap Prod.snd) := by
  rw [List.flatMap_map, Search.records, List.flatMap_assoc]
  rfl

theorem coe_flatMap_written (chunks : List (Fin n × List Match)) :
    (chunks.flatMap Prod.snd : Multiset Match) = ∑ i, (written chunks i : Multiset Match) := by
  induction chunks with
  | nil => simp [written]
  | cons c cs ih =>
    have hc : ∀ i, (written (c :: cs) i : Multiset Match) =
        (if c.1 = i then (c.2 : Multiset Match) else 0) + written cs i := by
      intro i
      by_cases hi : c.1 = i <;> simp [written, hi]
    simp only [hc, Finset.sum_add_distrib, ← ih, List.flatMap_cons, ← Multiset.coe_add,
      Finset.sum_ite_eq, Finset.mem_univ, if_true]

theorem coe_hits_found (S : Search) (ls : List (Label n)) :
    (hits S ls : Multiset Match) = ∑ i, (found S i ls : Multiset Match) := by
  induction ls with
  | nil => simp [hits, found]
  | cons l ls ih =>
    have hl : ∀ i, (found S i (l :: ls) : Multiset Match) =
        ((l.found S i).toList : Multiset Match) + found S i ls := by
      intro i
      unfold found
      cases h : l.found S i <;> simp [h]
    have hpick : ∑ i, ((l.found S i).toList : Multiset Match) =
        ((l.pick S.matchOf).toList : Multiset Match) := by
      cases l with
      | entry j dir e r =>
        simp only [Label.found, Label.pick, apply_ite Option.toList, apply_ite Multiset.ofList,
          Option.toList_none, Multiset.coe_nil, Finset.sum_ite_eq, Finset.mem_univ, if_true]
      | _ => simp [Label.found, Label.pick]
    rw [Finset.sum_congr rfl fun i _ => hl i, Finset.sum_add_distrib, ← ih, hpick]
    unfold hits
    cases h : l.pick S.matchOf <;> simp [h]

variable [NeZero n] {S : Search} {ls : List (Label n)} {s : State n}

/-- **Stdout consists of complete writes**, and then perhaps of the bytes of one that failed. -/
theorem exists_torn (h : (lts S).Run (.init S) ls s) :
    ∃ (chunks : List (Fin n × List Match)) (buf : Fin n → List Match) (last : List (Fin n × Bytes)),
      s.stdout = chunks.map (fun c => (c.1, S.records c.2)) ++ last ∧
      (∀ i, written chunks i ++ buf i = found S i ls) ∧
      (last = [] ∨ s.exit ≠ none ∧ ∃ i pre, last = [(i, pre)] ∧ pre <+: S.records (buf i)) := by
  by_cases hx : s.exit = none
  · obtain ⟨chunks, buf, hl⟩ := exists_ledger h hx
    exact ⟨chunks, buf, [], by rw [List.append_nil, hl.stdout], hl.found, Or.inl rfl⟩
  cases h with
  | nil => exact absurd rfl hx
  | snoc hr hst =>
    obtain ⟨hx₀, i, hm⟩ := hst.cases
    obtain ⟨chunks, buf, hl⟩ := exists_ledger hr hx₀
    cases hm with
    | @fail pre code _ hp =>
      rw [hl.out] at hp
      exact ⟨chunks, buf, [(i, pre)], by rw [hl.stdout],
        fun j => by rw [found_snoc, hl.found j]; exact (List.append_nil _).symm,
        Or.inr ⟨hx, i, pre, rfl, hp⟩⟩
    | _ => exact absurd (by simpa using hx₀) hx

/-- **The bytes on stdout are complete records of distinct matches of the traversal**, and then,
behind a failed write only, the beginning of the record of another match. -/
theorem stdout_records (h : (lts S).Run (.init S) ls s) :
    ∃ ms torn, s.output = S.records ms ++ torn ∧ ms.Subperm (S.traverse S.root) ∧
      (torn = [] ∨ s.exit ≠ none ∧
        ∃ m, (m :: ms).Subperm (S.traverse S.root) ∧ torn <+: S.printed m) := by
  obtain ⟨chunks, buf, last, hstdout, hfound, hlast⟩ := exists_torn h
  have hout : s.output = S.records (chunks.flatMap Prod.snd) ++ last.flatMap Prod.snd := by
    rw [State.output, hstdout, List.flatMap_append, flatMap_writes]
  -- what is written and what is in one of the buffers are matches of the traversal
  have hle : ∀ i, (chunks.flatMap Prod.snd ++ buf i).Subperm (S.traverse S.root) := by
    intro i
    refine List.Subperm.trans ?_ (pick_subperm S.matchOf h)
    rw [← Multiset.coe_le, ← Multiset.coe_add, coe_flatMap_written]
    refine le_trans ?_ (coe_hits_found S ls).ge
    rw [← Finset.sum_congr rfl fun j _ => congrArg Multiset.ofList (hfound j)]
    simp only [← Multiset.coe_add, Finset.sum_add_distrib]
    refine add_le_add_right ?_ _
    exact Finset.single_le_sum (f := fun j => (buf j : Multiset Match))
      (fun _ _ => Multiset.zero_le _) (Finset.mem_univ i)
  have hle₀ : (chunks.flatMap Prod.snd).Subperm (S.traverse S.root) :=
    (List.sublist_append_left _ _).subperm.trans (hle 0)
  rcases hlast with rfl | ⟨hx, i, pre, rfl, hp⟩
  · exact ⟨_, [], by simpa using hout, hle₀, Or.inl rfl⟩
  obtain ⟨ms, torn, hms, rfl, htorn⟩ := exists_prefix_flatMap S.printed hp
  refine ⟨chunks.flatMap Prod.snd ++ ms, torn, ?_, ?_, ?_⟩
  · rw [hout]
    simp [Search.records]
  · exact ((List.Sublist.refl _).append hms.sublist).subperm.trans (hle i)
  · refine htorn.imp_right ?_
    rintro ⟨m, hm, ht⟩
    refine ⟨hx, m, ?_, ht⟩
    have hperm : (m :: (chunks.flatMap Prod.snd ++ ms)).Perm
        (chunks.flatMap Prod.snd ++ (ms ++ [m])) := by
      rw [← List.append_assoc]
      exact (List.perm_append_singleton m _).symm
    exact hperm.subperm.trans (((List.Sublist.refl _).append hm.sublist).subperm.trans (hle i))

end Scheduler

end Pfind
