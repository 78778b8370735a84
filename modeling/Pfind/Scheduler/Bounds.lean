import Pfind.Cli.Size
import Pfind.Scheduler.Display

/-!
# Bounds on the size, from the command line to the run

`min_size_bytes` and `max_size_bytes` read their option with `parse_size`, and take an error for
"no bound".

* `ofCli_of_minSize_error`, `ofCli_of_maxSize_error` : with a bound that is no size the search is
  the one without the option.
* `boundsKept_iff` : **no bound is dropped if and only if every bound that is given is a size.**
* `not_boundsKept_abc` : `--min-size abc` is dropped.
-/

namespace Pfind

open Fs Text

namespace Scheduler

variable {n : ℕ}

/-- The search that a command line asks for. -/
def Search.ofCli (U : CaseData) (F : Cli.F64) (cli : Cli) (fs : FileSystem) : Search where
  fs := fs
  root := cli.root
  filter := cli.filterConfig U F
  output := cli.outputConfig

/-- The process has ended. -/
def State.Over (s : State n) : Prop := s.exit.isSome = true ∨ ∀ i, s.task i = .finished

/-- The process has ended with an error. -/
def State.ReportsError (s : State n) : Prop := ∃ code, s.exit = some code ∧ code ≠ 0

/-- Every file that a run counts is within a bound that is a size; with any other bound the process
ends with an error instead of matches. -/
def BoundKept (U : CaseData) (F : Cli.F64) (S : Search) (n : ℕ) [NeZero n] (bound : Option String)
    (within : UInt64 → UInt64 → Prop) : Prop :=
  ∀ t ∈ bound, ∀ (ls : List (Label n)) (s : State n), (lts S).Run (.init S) ls s →
    match Cli.parseSize U F t with
    | .ok v => ∀ x ∈ countedIn S ls, ∃ size, x.2.metadata = some size ∧ within v size
    | .error _ => s.Over → s.ReportsError ∧ countedIn S ls = ∅

/-- Both bounds of a command line are kept, by `n` workers on the tree `fs`. -/
def BoundsKept (U : CaseData) (F : Cli.F64) (cli : Cli) (fs : FileSystem) (n : ℕ) [NeZero n] :
    Prop :=
  BoundKept U F (.ofCli U F cli fs) n cli.minSize (fun min size => min ≤ size) ∧
    BoundKept U F (.ofCli U F cli fs) n cli.maxSize (fun max size => size ≤ max)

variable {U : CaseData} {F : Cli.F64} {S : Search} {cli : Cli} {fs : FileSystem} {t err : String}

theorem minSizeBytes_eq (ht : cli.minSize = some t) :
    cli.minSizeBytes U F = (Cli.parseSize U F t).toOption := by
  rw [Cli.minSizeBytes, ht, Option.bind_some]

theorem maxSizeBytes_eq (ht : cli.maxSize = some t) :
    cli.maxSizeBytes U F = (Cli.parseSize U F t).toOption := by
  rw [Cli.maxSizeBytes, ht, Option.bind_some]

/-! ### Bounds that are no sizes -/

theorem ofCli_of_minSize_error (ht : cli.minSize = some t)
    (herr : Cli.parseSize U F t = .error err) :
    Search.ofCli U F cli fs = Search.ofCli U F { cli with minSize := none } fs := by
  have hnone : cli.minSizeBytes U F = none := by
    rw [minSizeBytes_eq ht, herr]
    rfl
  unfold Search.ofCli Cli.filterConfig
  rw [hnone]
  rfl

theorem ofCli_of_maxSize_error (ht : cli.maxSize = some t)
    (herr : Cli.parseSize U F t = .error err) :
    Search.ofCli U F cli fs = Search.ofCli U F { cli with maxSize := none } fs := by
  have hnone : cli.maxSizeBytes U F = none := by
    rw [maxSizeBytes_eq ht, herr]
    rfl
  unfold Search.ofCli Cli.filterConfig
  rw [hnone]
  rfl

theorem BoundKept.parses [NeZero n] {within : UInt64 → UInt64 → Prop}
    (h : BoundKept U F S n (some t) within) : ∃ v, Cli.parseSize U F t = .ok v := by
  obtain ⟨ls, s, hrun, hx, hf⟩ := exists_finished (n := n) (LTS.Reachable.refl _)
    (show (State.init S).exit = none from rfl)
  have hs := h t rfl ls s hrun
  cases hp : Cli.parseSize U F t with
  | ok v => exact ⟨v, rfl⟩
  | error err =>
    rw [hp] at hs
    obtain ⟨⟨code, hcode, -⟩, -⟩ := hs (Or.inr hf)
    rw [hx] at hcode
    cases hcode

/-! ### Bounds that are sizes -/

theorem isSome_of_mem_countedIn {ls : List (Label n)} {x : PathBuf × DirEntry}
    (hx : x ∈ countedIn S ls) : (S.matchOf x.1 (some x.2)).isSome = true := by
  obtain ⟨l, -, hl⟩ := List.mem_filterMap.1 hx
  cases l with
  | entry i dir e rec =>
    obtain ⟨rfl, rfl, hm⟩ := counted_eq_some.1 hl
    exact hm
  | pool | opened | unreadable | listed | flushed | added | failed => cases hl

theorem inBounds_of_mem_countedIn {ls : List (Label n)} {x : PathBuf × DirEntry}
    (hd : S.filter.matchDirs = false)
    (hb : S.filter.minSize.isSome = true ∨ S.filter.maxSize.isSome = true)
    (hx : x ∈ countedIn S ls) :
    ∃ size, x.2.metadata = some size ∧ inBounds S.filter size = true := by
  have hm : ((S.display S.output.sumSize S.output.longFormat).matchOf x.1 (some x.2)).isSome =
      true := isSome_of_mem_countedIn hx
  rw [isSome_matchOf_display] at hm
  split at hm
  · simp [hd] at hm
  · have hneed : (S.output.sumSize || S.output.longFormat || S.filter.minSize.isSome ||
        S.filter.maxSize.isSome) = true := by
      rcases hb with hb | hb <;> simp [hb]
    rw [hneed, Bool.not_true, Bool.false_or, Bool.and_eq_true] at hm
    exact (Option.any_eq_true _ _).1 hm.2
  · cases hm

theorem BoundKept.of_filter [NeZero n] {bound : Option String} {within : UInt64 → UInt64 → Prop}
    (hd : S.filter.matchDirs = false) (h : ∀ t ∈ bound, ∃ v, Cli.parseSize U F t = .ok v ∧
      (S.filter.minSize.isSome = true ∨ S.filter.maxSize.isSome = true) ∧
      ∀ size, inBounds S.filter size = true → within v size) :
    BoundKept U F S n bound within := by
  intro t ht ls s _
  obtain ⟨v, hv, hb, hwithin⟩ := h t ht
  rw [hv]
  intro x hx
  obtain ⟨size, hsize, hin⟩ := inBounds_of_mem_countedIn hd hb hx
  exact ⟨size, hsize, hwithin size hin⟩

theorem boundsKept_of_parses [NeZero n] (hd : cli.dirs = false)
    (h : ∀ t, cli.minSize = some t ∨ cli.maxSize = some t → ∃ v, Cli.parseSize U F t = .ok v) :
    BoundsKept U F cli fs n := by
  constructor
  · refine .of_filter hd fun t ht => ?_
    obtain ⟨v, hv⟩ := h t (Or.inl ht)
    have hmin : (Search.ofCli U F cli fs).filter.minSize = some v := by
      rw [Search.ofCli, Cli.filterConfig, minSizeBytes_eq ht, hv]
      rfl
    refine ⟨v, hv, Or.inl (by rw [hmin]; rfl), fun size hin => ?_⟩
    rw [inBounds, hmin, Bool.and_eq_true] at hin
    exact of_decide_eq_true hin.1
  · refine .of_filter hd fun t ht => ?_
    obtain ⟨v, hv⟩ := h t (Or.inr ht)
    have hmax : (Search.ofCli U F cli fs).filter.maxSize = some v := by
      rw [Search.ofCli, Cli.filterConfig, maxSizeBytes_eq ht, hv]
      rfl
    refine ⟨v, hv, Or.inr (by rw [hmax]; rfl), fun size hin => ?_⟩
    rw [inBounds, hmax, Bool.and_eq_true] at hin
    exact of_decide_eq_true hin.2

/-! ### Main theorem -/

theorem parses_of_boundsKept [NeZero n] (h : BoundsKept U F cli fs n)
    (ht : cli.minSize = some t ∨ cli.maxSize = some t) : ∃ v, Cli.parseSize U F t = .ok v := by
  obtain ⟨hmin, hmax⟩ := h
  rcases ht with ht | ht
  · rw [ht] at hmin
    exact hmin.parses
  · rw [ht] at hmax
    exact hmax.parses

/-- **The bounds on the size are kept** if and only if every bound that is given is a size. -/
theorem boundsKept_iff (U : CaseData) (F : Cli.F64) (cli : Cli) (fs : FileSystem) (n : ℕ) [NeZero n]
    (hd : cli.dirs = false) : BoundsKept U F cli fs n ↔
      ∀ t, cli.minSize = some t ∨ cli.maxSize = some t → ∃ v, Cli.parseSize U F t = .ok v :=
  ⟨fun h _ ht => parses_of_boundsKept h ht, boundsKept_of_parses hd⟩

/-- A command line with the given bounds. -/
def ofBounds (min max : Option String) : Cli :=
  ⟨[byte 'r'], none, [], min, max, [], false, false, false, false, false, none⟩

/-- Two workers on the small tree, with both bounds. -/
theorem boundsKept_small :
    BoundsKept .latin1 .decimal (ofBounds (some "2") (some "1kb")) small.fs 2 := by
  refine (boundsKept_iff .latin1 .decimal (ofBounds (some "2") (some "1kb")) small.fs 2
    rfl).2 ?_
  rintro t (h | h)
  · cases h
    exact ⟨2, by decide⟩
  · cases h
    exact ⟨1024, by decide⟩

/-- **`--min-size abc` is dropped.** -/
theorem not_boundsKept_abc : ¬ ∀ (cli : Cli) (fs : FileSystem), cli.dirs = false →
    BoundsKept .latin1 .decimal cli fs 1 := by
  intro h
  obtain ⟨v, hv⟩ := parses_of_boundsKept (h (ofBounds (some "abc") none) small.fs rfl)
    (Or.inl rfl)
  cases hv

end Scheduler

end Pfind
