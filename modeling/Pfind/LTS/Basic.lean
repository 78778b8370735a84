import Mathlib.Data.List.Basic
import Mathlib.Logic.Basic
import Mathlib.Order.Basic

/-!
# Labelled transition systems, their runs, and rules about them

A concurrent program is modelled as a labelled transition system: a state, and a relation
saying which states one atomic step of some thread may lead to and with which label.

* `LTS.Run s₀ ls s` : performing the labels `ls` in order leads from `s₀` to `s`.  The last
  step is the outermost constructor, so that a history is extended at its end.
* `LTS.Run.history` : the **invariant rule** for statements about a state and the history that
  led to it; `LTS.Reachable.invariant` is the case without history.
* `LTS.Run.length_add_le` : the **variant rule**: a natural number that every step decreases
  bounds the length of every run.
* `LTS.exists_stuck` : the **progress rule**: where there is such a number, every state can be
  left by a run that goes on as long as there is a step.
* `LTS.restrict` : the system whose steps are those that meet a condition.
* `LTS.exec` : a schedule run by a step function, which `LTS.Run.of_exec` turns into a run;
  `LTS.Run.of_exec_map` is the form for a schedule that has been evaluated.
* `LTS.Simulation` : a relation under which every step of one system is matched by at most one
  step of another, and `LTS.Simulation.reachable`, which carries reachability over.
* `LTS.Refinement` : some labels of one system are observed as labels of another, and the steps
  with the other labels do not move it; by `LTS.Refinement.run` the observed labels of a run are
  the labels of a run.
-/

namespace Pfind

/-- A labelled transition system with states `S` and labels `L`. -/
structure LTS (S : Type*) (L : Type*) where
  /-- `step s l s'` : the system can move from `s` to `s'` performing `l`. -/
  step : S → L → S → Prop

namespace LTS

variable {S L S' L' : Type*} (A : LTS S L)

/-- `A.Run s₀ ls s` : the labels `ls`, in this order, lead from `s₀` to `s`. -/
inductive Run (s₀ : S) : List L → S → Prop
  | nil : Run s₀ [] s₀
  | snoc {ls : List L} {s s' : S} {l : L} :
      Run s₀ ls s → A.step s l s' → Run s₀ (ls ++ [l]) s'

/-- `s` can be reached from `s₀` by some run. -/
def Reachable (s₀ s : S) : Prop := ∃ ls, A.Run s₀ ls s

/-- No step leaves `s`: a run that ends here cannot be extended. -/
def Stuck (s : S) : Prop := ∀ l s', ¬ A.step s l s'

variable {A}

theorem Run.reachable {s₀ s : S} {ls : List L} (h : A.Run s₀ ls s) : A.Reachable s₀ s :=
  ⟨ls, h⟩

theorem Run.append {s₀ s s' : S} {ls ls' : List L} (h : A.Run s₀ ls s) (h' : A.Run s ls' s') :
    A.Run s₀ (ls ++ ls') s' := by
  induction h' with
  | nil => rwa [List.append_nil]
  | snoc _ hst ih => rw [← List.append_assoc]; exact ih.snoc hst

theorem Run.single {s s' : S} {l : L} (h : A.step s l s') : A.Run s [l] s' := .snoc .nil h

/-- **Invariant rule with history.**  A statement about the labels performed so far and the
current state holds after every run if it holds before the first step and every step extends
it. -/
theorem Run.history {P : List L → S → Prop} {s₀ s : S} {ls : List L} (h : A.Run s₀ ls s)
    (h₀ : P [] s₀)
    (hstep : ∀ ls s l s', A.Run s₀ ls s → P ls s → A.step s l s' → P (ls ++ [l]) s') :
    P ls s := by
  induction h with
  | nil => exact h₀
  | snoc hr hst ih => exact hstep _ _ _ _ hr ih hst

namespace Reachable

theorem refl (s : S) : A.Reachable s s := ⟨[], .nil⟩

theorem tail {s₀ s s' : S} {l : L} (h : A.Reachable s₀ s) (hst : A.step s l s') :
    A.Reachable s₀ s' := by
  obtain ⟨ls, hr⟩ := h
  exact ⟨_, hr.snoc hst⟩

theorem trans {s₁ s₂ s₃ : S} (h : A.Reachable s₁ s₂) (h' : A.Reachable s₂ s₃) :
    A.Reachable s₁ s₃ := by
  obtain ⟨ls, hr⟩ := h
  obtain ⟨ls', hr'⟩ := h'
  exact ⟨_, hr.append hr'⟩

/-- **Invariant rule.**  A predicate that holds at `s₀` and is preserved by every step from a
reachable state holds at every reachable state. -/
theorem invariant {I : S → Prop} {s₀ s : S} (h : A.Reachable s₀ s) (h₀ : I s₀)
    (hstep : ∀ s l s', A.Reachable s₀ s → I s → A.step s l s' → I s') : I s := by
  obtain ⟨ls, hr⟩ := h
  exact hr.history (P := fun _ s => I s) h₀ fun _ _ _ _ hr' => hstep _ _ _ hr'.reachable

end Reachable

/-- **Variant rule.**  If every step from a reachable state decreases `μ`, a run from `s₀` has
at most `μ s₀` steps, less what is left at its end. -/
theorem Run.length_add_le {μ : S → ℕ} {s₀ s : S} {ls : List L} (h : A.Run s₀ ls s)
    (hstep : ∀ s l s', A.Reachable s₀ s → A.step s l s' → μ s' < μ s) :
    ls.length + μ s ≤ μ s₀ := by
  refine h.history (P := fun ls s => ls.length + μ s ≤ μ s₀) (by simp) ?_
  intro ls s l s' hr ih hst
  have := hstep s l s' hr.reachable hst
  simp only [List.length_append, List.length_singleton]
  omega

/-- **Progress rule.**  If every step decreases `μ`, any state can be left by a run that ends in a
state without a next step. -/
theorem exists_stuck (μ : S → ℕ) (hstep : ∀ s l s', A.step s l s' → μ s' < μ s) (s : S) :
    ∃ ls s', A.Run s ls s' ∧ A.Stuck s' := by
  induction hμ : μ s using Nat.strongRecOn generalizing s with
  | ind k ih =>
    by_cases hs : A.Stuck s
    · exact ⟨[], s, .nil, hs⟩
    · simp only [Stuck, not_forall, not_not] at hs
      obtain ⟨l, s', hst⟩ := hs
      obtain ⟨ls, s'', hr, hs''⟩ := ih (μ s') (hμ ▸ hstep s l s' hst) s' rfl
      exact ⟨_, s'', (Run.single hst).append hr, hs''⟩

/-- The steps of `A` that meet the condition `ok`, which may depend on the state before the step
and on the label. -/
def restrict (A : LTS S L) (ok : S → L → Prop) : LTS S L := ⟨fun s l s' => ok s l ∧ A.step s l s'⟩

theorem Run.mono {B : LTS S L} (hAB : ∀ s l s', A.step s l s' → B.step s l s') {s₀ s : S}
    {ls : List L} (h : A.Run s₀ ls s) : B.Run s₀ ls s := by
  induction h with
  | nil => exact .nil
  | snoc _ hst ih => exact ih.snoc (hAB _ _ _ hst)

/-! ### Schedules -/

section Exec

variable {C : Type*}

/-- Follow the choices of a list, each of which determines the next step. -/
def exec (next : S → C → Option (L × S)) : List C → S → Option (List L × S)
  | [], s => some ([], s)
  | c :: cs, s => (next s c).bind fun x => (exec next cs x.2).map fun y => (x.1 :: y.1, y.2)

theorem Run.of_exec {next : S → C → Option (L × S)}
    (hnext : ∀ {s c l s'}, next s c = some (l, s') → A.step s l s') {cs : List C} {s s' : S}
    {ls : List L} (h : exec next cs s = some (ls, s')) : A.Run s ls s' := by
  induction cs generalizing s ls with
  | nil => cases h; exact .nil
  | cons c cs ih =>
    simp only [exec, Option.bind_eq_some_iff, Option.map_eq_some_iff, Prod.mk.injEq] at h
    obtain ⟨⟨l, s₁⟩, hn, ⟨ls', s₂⟩, hx, rfl, rfl⟩ := h
    exact (Run.single (hnext hn)).append (ih hx)

/-- What evaluating a schedule shows of the run that it is. -/
theorem Run.of_exec_map {β : Type*} {f : List L × S → β} {b : β} {next : S → C → Option (L × S)}
    (hnext : ∀ {s c l s'}, next s c = some (l, s') → A.step s l s') {cs : List C} {s : S}
    (h : (exec next cs s).map f = some b) :
    ∃ ls s', exec next cs s = some (ls, s') ∧ A.Run s ls s' ∧ f (ls, s') = b := by
  obtain ⟨⟨ls, s'⟩, hx, hf⟩ := Option.map_eq_some_iff.1 h
  exact ⟨ls, s', hx, .of_exec hnext hx, hf⟩

end Exec

/-! ### Simulations -/

/-- `R` relates the states of `A` to states of `B` so that every step of `A` is matched by one
step of `B` or by none. -/
structure Simulation (A : LTS S L) (B : LTS S' L') (R : S → S' → Prop) : Prop where
  /-- A step of `A` is a stutter or a step of `B`. -/
  step : ∀ {s t l s'}, R s t → A.step s l s' → R s' t ∨ ∃ l' t', B.step t l' t' ∧ R s' t'

/-- Reachability carries over along a simulation. -/
theorem Simulation.reachable {B : LTS S' L'} {R : S → S' → Prop} (sim : Simulation A B R)
    {s₀ s : S} {t₀ : S'} (h : A.Reachable s₀ s) (h₀ : R s₀ t₀) :
    ∃ t, B.Reachable t₀ t ∧ R s t := by
  refine h.invariant (I := fun s => ∃ t, B.Reachable t₀ t ∧ R s t) ⟨t₀, .refl _, h₀⟩ ?_
  rintro s l s' - ⟨t, ht, hR⟩ hst
  rcases sim.step hR hst with hR' | ⟨l', t', hst', hR'⟩
  · exact ⟨t, ht, hR'⟩
  · exact ⟨t', ht.tail hst', hR'⟩

/-! ### Refinements -/

/-- `B` moves from `t` to `t'` with the label observed, or stays where it is. -/
def Moves (B : LTS S' L') (t : S') : Option L' → S' → Prop
  | none, t' => t' = t
  | some l, t' => B.step t l t'

/-- Every step of `A` from a state reachable from `s₀` is observed as a step of `B`, or not at
all, and keeps the states related. -/
structure Refinement (A : LTS S L) (B : LTS S' L') (observe : L → Option L') (s₀ : S)
    (R : S → S' → Prop) : Prop where
  /-- A step of `A`, seen from a related state of `B`. -/
  step : ∀ {s t l s'}, A.Reachable s₀ s → R s t → A.step s l s' →
    ∃ t', B.Moves t (observe l) t' ∧ R s' t'

/-- **The observed labels of a run are the labels of a run.** -/
theorem Refinement.run {B : LTS S' L'} {observe : L → Option L'} {R : S → S' → Prop} {s₀ s : S}
    {t₀ : S'} {ls : List L} (ref : Refinement A B observe s₀ R) (h : A.Run s₀ ls s) (h₀ : R s₀ t₀) :
    ∃ t, B.Run t₀ (ls.filterMap observe) t ∧ R s t := by
  refine h.history (P := fun ls s => ∃ t, B.Run t₀ (ls.filterMap observe) t ∧ R s t)
    ⟨t₀, .nil, h₀⟩ ?_
  rintro ls s l s' hr ⟨t, ht, hR⟩ hst
  obtain ⟨t', hm, hR'⟩ := ref.step hr.reachable hR hst
  refine ⟨t', ?_, hR'⟩
  rw [List.filterMap_append]
  cases hl : observe l with
  | none =>
    rw [hl] at hm
    obtain rfl : t' = t := hm
    simpa [hl] using ht
  | some l' =>
    rw [hl] at hm
    simpa [hl] using ht.snoc hm

end LTS

end Pfind
