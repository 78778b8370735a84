import Mathlib.Data.List.Basic
import Pfind.LTS.Basic

/-!
# Answers that change

A system asks questions, at most one in a step, and a step depends on the answer to its own
question alone (`LTS.Asking`).  The answers may change from one step to the next
(`LTS.changing`).

* `LTS.Asking.run_congr` : a run depends on the answers to the questions asked in it.
* `LTS.Asking.run_of_changing` : **if no question is asked twice, a run with changing answers is a
  run with fixed ones**: those that have been given, written down as they were.
-/

namespace Pfind

namespace LTS

variable {O Q S L : Type*}

/-- Systems that differ in the answers that they get, and agree where these do. -/
structure Asking (system : O → LTS S L) (query : L → Option Q) (Agree : Q → O → O → Prop) :
    Prop where
  /-- Agreement on one question carries over. -/
  trans : ∀ {q o o' o''}, Agree q o o' → Agree q o' o'' → Agree q o o''
  /-- A step depends on the answer to its question. -/
  step_congr : ∀ {o o' s l s'}, (system o).step s l s' → (∀ q ∈ query l, Agree q o o') →
    (system o').step s l s'
  /-- The question does not depend on what the answer is going to be. -/
  asks : ∀ {o s l s' q}, (system o).step s l s' → q ∈ query l →
    ∀ o', ∃ l' s'', (system o').step s l' s'' ∧ q ∈ query l'

/-- The system in which each step gets its answer from somewhere else. -/
def changing (system : O → LTS S L) : LTS S (O × L) :=
  ⟨fun s x s' => (system x.1).step s x.2 s'⟩

variable {system : O → LTS S L} {query : L → Option Q} {Agree : Q → O → O → Prop} {s₀ s : S}

theorem Run.changing {o : O} {ls : List L} (h : (system o).Run s₀ ls s) :
    (changing system).Run s₀ (ls.map fun l => (o, l)) s := by
  induction h with
  | nil => exact .nil
  | snoc _ hst ih =>
    rw [List.map_append, List.map_singleton]
    exact ih.snoc hst

/-- **A run depends on the answers to the questions asked in it.** -/
theorem Asking.run_congr (h : Asking system query Agree) {o e : O} {ls : List L}
    (hr : (system o).Run s₀ ls s) (hq : ∀ q ∈ ls.filterMap query, Agree q o e) :
    (system e).Run s₀ ls s := by
  induction hr with
  | nil => exact .nil
  | snoc _ hst ih =>
    rw [List.filterMap_append] at hq
    refine (ih fun q hm => hq q (List.mem_append_left _ hm)).snoc (h.step_congr hst fun q hm => ?_)
    exact hq q (List.mem_append_right _ (List.mem_filterMap.2 ⟨_, List.mem_singleton_self _, hm⟩))

/-- **If no question is asked twice, a run with changing answers is a run with fixed ones.**  The
answers given may come from `Valid` sources; those written down make up an `Ok` one, in which an
answer can be replaced. -/
theorem Asking.run_of_changing (h : Asking system query Agree) {Valid Ok : O → Prop}
    (hpatch : ∀ {o e} q, Ok o → Valid e →
      ∃ o', Ok o' ∧ Agree q e o' ∧ ∀ q', q' ≠ q → Agree q' o o')
    (honce : ∀ {o ls s}, Ok o → (system o).Run s₀ ls s → (ls.filterMap query).Nodup)
    {o₀ : O} (h₀ : Ok o₀) {xs : List (O × L)} (hr : (changing system).Run s₀ xs s)
    (hv : ∀ x ∈ xs, Valid x.1) :
    ∃ o, Ok o ∧ (system o).Run s₀ (xs.map Prod.snd) s ∧
      ∀ x ∈ xs, ∀ q ∈ query x.2, Agree q x.1 o := by
  induction hr with
  | nil => exact ⟨o₀, h₀, .nil, by simp⟩
  | @snoc xs s s' x _ hst ih =>
    obtain ⟨hvs, hvx⟩ := List.forall_mem_append.1 hv
    obtain ⟨o, ho, hrun, hagree⟩ := ih hvs
    have hvx : Valid x.1 := hvx x (List.mem_singleton_self x)
    simp only [List.map_append, List.map_singleton]
    cases hq : query x.2 with
    | none =>
      have hst' : (system o).step s x.2 s' := h.step_congr hst (by simp [hq])
      refine ⟨o, ho, hrun.snoc hst', List.forall_mem_append.2 ⟨hagree, ?_⟩⟩
      simp [hq]
    | some q =>
      -- asked again, the question would come up a second time in a run with fixed answers
      obtain ⟨l, s'', hl, hql⟩ := h.asks hst hq o
      have hfresh : q ∉ (xs.map Prod.snd).filterMap query := by
        have hnodup := honce ho (hrun.snoc hl)
        rw [List.filterMap_append, List.filterMap_cons_some (Option.mem_def.1 hql)] at hnodup
        exact fun hm => (List.nodup_append.1 hnodup).2.2 q hm q (by simp) rfl
      -- so the answer may be written down without changing those to the questions before
      obtain ⟨o', ho', hnew, hold⟩ := hpatch q ho hvx
      have hkeep : ∀ q' ∈ (xs.map Prod.snd).filterMap query, Agree q' o o' := fun q' hm =>
        hold q' fun he => hfresh (he ▸ hm)
      refine ⟨o', ho', (h.run_congr hrun hkeep).snoc (h.step_congr hst ?_),
        List.forall_mem_append.2 ⟨fun y hy q' hq' => ?_, ?_⟩⟩
      · simpa [hq] using hnew
      · refine h.trans (hagree y hy q' hq') (hkeep q' ?_)
        exact List.mem_filterMap.2 ⟨y.2, List.mem_map_of_mem hy, hq'⟩
      · simpa [hq] using hnew

end LTS

end Pfind
