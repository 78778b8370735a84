import Pfind.Scheduler.Progress
import Pfind.Walker.Filter

/-!
# Display options

`--sum-size` and `--long` say what to print about the matches, but they also make the walker read
the size of every entry, and a regular file whose size cannot be read is dropped.

* `mem_counted_iff` : a run to the end of all threads counts an entry if and only if the entry is
  in a directory of the tree and is a match.
* `displayNeutral_iff` : **the display options leave the set of matches alone if and only if no
  size has to be read for them**: directories are searched, or a bound makes sizes needed anyway,
  or all sizes can be read.
* `not_displayNeutral_locked` : a directory that can be listed but not searched is a
  counterexample.
-/

namespace Pfind

open Fs

namespace Scheduler

variable {n n' : ℕ}

namespace Search

/-- The same search with other display options. -/
def display (S : Search) (sumSize longFormat : Bool) : Search :=
  { S with output := { S.output with sumSize := sumSize, longFormat := longFormat } }

/-- The entry, if `walk_one` counts it as a match. -/
def counted (S : Search) (dir : PathBuf) (entry : Option DirEntry) : Option (PathBuf × DirEntry) :=
  if (walkEntry S.fs S.filter S.output dir entry .new).1.localCount = 1 then
    entry.map fun e => (dir, e)
  else none

/-- The size of every regular file with an accepted name can be read. -/
def SizesReadable (S : Search) : Prop :=
  ∀ dir ∈ S.tree.preorder S.root, ∀ e, some e ∈ S.fs.listing dir → e.fileType = some .file →
    S.filter.acceptsName e = true → e.metadata.isSome = true

/-- Nothing has to be read for display only. -/
def SizesFree (S : Search) : Prop :=
  S.filter.matchDirs = true ∨ S.filter.minSize.isSome = true ∨ S.filter.maxSize.isSome = true ∨
    S.SizesReadable

end Search

/-- The entries that a run has counted as matches. -/
def countedIn (S : Search) (ls : List (Label n)) : Set (PathBuf × DirEntry) :=
  {x | x ∈ ls.filterMap (Label.pick S.counted)}

/-- Runs of `n` and of `n'` workers to the end of all threads count the same entries under any two
settings of the display options. -/
def DisplayNeutral (S : Search) (n n' : ℕ) [NeZero n] [NeZero n'] : Prop :=
  ∀ (sum long sum' long' : Bool) (ls : List (Label n)) (ls' : List (Label n')) (s : State n)
    (s' : State n'),
    (lts (S.display sum long)).Run (.init (S.display sum long)) ls s →
    (∀ i, s.task i = .finished) →
    (lts (S.display sum' long')).Run (.init (S.display sum' long')) ls' s' →
    (∀ i, s'.task i = .finished) →
    countedIn (S.display sum long) ls = countedIn (S.display sum' long') ls'

variable {S : Search} {dir : PathBuf} {e : DirEntry} {sum long : Bool}

/-! ### What is counted -/

theorem counted_eq_some {entry : Option DirEntry} {x : PathBuf × DirEntry} :
    S.counted dir entry = some x ↔
      entry = some x.2 ∧ dir = x.1 ∧ (S.matchOf dir entry).isSome = true := by
  have hcount : (walkEntry S.fs S.filter S.output dir entry .new).1.localCount = 1 ↔
      (S.matchOf dir entry).isSome = true := by
    rw [walkEntry_localCount]
    show 0 + (S.matchOf dir entry).toList.length = 1 ↔ _
    cases S.matchOf dir entry <;> simp
  obtain ⟨d, e⟩ := x
  simp only [Search.counted, hcount, Option.ite_none_right_eq_some, Option.map_eq_some_iff,
    Prod.mk.injEq]
  constructor
  · rintro ⟨hm, e', he, rfl, rfl⟩
    exact ⟨he, rfl, hm⟩
  · rintro ⟨he, rfl, hm⟩
    exact ⟨hm, e, he, rfl, rfl⟩

/-- **What a run to the end of all threads counts.** -/
theorem mem_counted_iff [NeZero n] {ls : List (Label n)} {s : State n}
    (h : (lts S).Run (.init S) ls s) (hf : ∀ i, s.task i = .finished) :
    (dir, e) ∈ countedIn S ls ↔
      dir ∈ S.tree.preorder S.root ∧ some e ∈ S.fs.listing dir ∧
        (S.matchOf dir (some e)).isSome = true := by
  have hperm := pick_perm S.counted h hf
  simp only [countedIn, Set.mem_ofPred_eq, hperm.mem_iff, Search.collect, List.mem_flatMap,
    List.mem_filterMap, counted_eq_some]
  constructor
  · rintro ⟨d, hd, entry, he, rfl, rfl, hm⟩
    exact ⟨hd, he, hm⟩
  · rintro ⟨hd, he, hm⟩
    exact ⟨dir, hd, some e, he, rfl, rfl, hm⟩

theorem isSome_matchOf_display : ((S.display sum long).matchOf dir (some e)).isSome =
    match e.fileType with
    | some .dir =>
      S.filter.matchDirs && !shouldSkipDirBytes e.fileName S.filter && S.filter.acceptsName e
    | some .file =>
      !S.filter.matchDirs && S.filter.acceptsName e &&
        (!(sum || long || S.filter.minSize.isSome || S.filter.maxSize.isSome) ||
          e.metadata.any (inBounds S.filter))
    | _ => false := by
  simp only [Search.matchOf, Pfind.matchOf, Option.bind_some]
  cases e.fileType with
  | none => rfl
  | some ft =>
    cases ft with
    | dir => exact isSome_matchDir
    | file => exact isSome_matchFile
    | symlink | other => rfl

theorem isSome_matchOf_of_sizesFree (hS : S.SizesFree) (hd : dir ∈ S.tree.preorder S.root)
    (he : some e ∈ S.fs.listing dir) (sum' long' : Bool) :
    ((S.display sum long).matchOf dir (some e)).isSome =
      ((S.display sum' long').matchOf dir (some e)).isSome := by
  simp only [isSome_matchOf_display]
  split
  · rfl
  · rename_i hft
    rcases hS with h | h | h | h
    · simp [h]
    · simp [h]
    · simp [h]
    · cases ha : S.filter.acceptsName e with
      | false => simp
      | true =>
        obtain ⟨size, hsize⟩ := Option.isSome_iff_exists.1 (h dir hd e he hft ha)
        cases hmin : S.filter.minSize <;> cases hmax : S.filter.maxSize <;>
          simp [hsize, inBounds, hmin, hmax]
  · rfl

theorem isSome_matchOf_of_unreadable (hd : S.filter.matchDirs = false)
    (hmin : S.filter.minSize = none) (hmax : S.filter.maxSize = none)
    (hft : e.fileType = some .file) (ha : S.filter.acceptsName e = true) (hm : e.metadata = none) :
    ((S.display sum long).matchOf dir (some e)).isSome = !(sum || long) := by
  simp [isSome_matchOf_display, hft, hd, hmin, hmax, ha, hm]

/-! ### Two runs -/

section Runs

variable [NeZero n] [NeZero n']

theorem displayNeutral_of_sizesFree (hS : S.SizesFree) : DisplayNeutral S n n' := by
  intro sum long sum' long' ls ls' s s' h hf h' hf'
  ext ⟨dir, e⟩
  rw [mem_counted_iff h hf, mem_counted_iff h' hf']
  refine and_congr_right fun hd => and_congr_right fun he => ?_
  rw [isSome_matchOf_of_sizesFree hS hd he sum' long']

theorem sizesFree_of_displayNeutral (hS : DisplayNeutral S n n') : S.SizesFree := by
  by_contra hfree
  simp only [Search.SizesFree, Search.SizesReadable, not_or, not_forall, Bool.not_eq_true,
    Option.isSome_eq_false_iff, Option.isNone_iff_eq_none] at hfree
  obtain ⟨hd, hmin, hmax, dir, hdir, e, he, hft, ha, hm⟩ := hfree
  obtain ⟨ls, s, h, -, hf⟩ := exists_finished (n := n) (LTS.Reachable.refl _)
    (show (State.init (S.display false false)).exit = none from rfl)
  obtain ⟨ls', s', h', -, hf'⟩ := exists_finished (n := n') (LTS.Reachable.refl _)
    (show (State.init (S.display true false)).exit = none from rfl)
  have heq := hS false false true false ls ls' s s' h hf h' hf'
  have hin : (dir, e) ∈ countedIn (S.display false false) ls :=
    (mem_counted_iff h hf).2 ⟨hdir, he, isSome_matchOf_of_unreadable hd hmin hmax hft ha hm⟩
  rw [heq, mem_counted_iff h' hf', isSome_matchOf_of_unreadable hd hmin hmax hft ha hm] at hin
  exact Bool.false_ne_true hin.2.2

/-- **The display options leave the set of matches alone** if and only if directories are searched,
or a bound on the size is set, or every regular file with an accepted name has a size that can be
read. -/
theorem displayNeutral_iff (S : Search) (n n' : ℕ) [NeZero n] [NeZero n'] :
    DisplayNeutral S n n' ↔ S.filter.matchDirs = true ∨ S.filter.minSize.isSome = true ∨
      S.filter.maxSize.isSome = true ∨ S.SizesReadable :=
  ⟨sizesFree_of_displayNeutral, displayNeutral_of_sizesFree⟩

end Runs

/-- Two workers on the small tree, in which every size can be read. -/
theorem displayNeutral_small : DisplayNeutral small 1 2 := by
  refine (displayNeutral_iff small 1 2).2 (Or.inr (Or.inr (Or.inr ?_)))
  intro dir _ e he hft _
  simp only [FileSystem.listing, small, small.fs] at he
  split_ifs at he
  · simp only [Option.getD_some, List.mem_cons, Option.some.injEq, List.not_mem_nil,
      or_false] at he
    rcases he with rfl | rfl
    · cases hft
    · rfl
  · cases he
  · cases he

/-- A root `r` with a file `f`, that can be listed but not searched. -/
def locked : Search where
  fs :=
    { readDir := fun p =>
        if p = [byte 'r'] then some [some ⟨[byte 'f'], some .file, none⟩] else none
      metadata := fun _ => none
      height := fun _ => 0
      height_lt := fun hr he hd => by
        split_ifs at hr
        cases hr
        obtain rfl := Option.some.inj (List.mem_singleton.1 he)
        cases hd }
  root := [byte 'r']
  filter := ⟨[], [], none, none, none, false⟩
  output := ⟨true, false, false⟩

/-- The file in that directory is counted without `--sum-size`, and not counted with it. -/
theorem not_displayNeutral_locked : ¬ DisplayNeutral locked 1 1 := by
  intro h
  have hfree := sizesFree_of_displayNeutral h
  simp only [Search.SizesFree, locked, Bool.false_eq_true, Option.isSome_none, false_or] at hfree
  have hr : [byte 'r'] ∈ locked.tree.preorder [byte 'r'] := by
    rw [Unfolding.preorder_eq]
    exact List.mem_cons_self
  have := hfree _ hr ⟨[byte 'f'], some .file, none⟩ (List.mem_singleton.2 rfl) rfl rfl
  cases this

end Scheduler

end Pfind
