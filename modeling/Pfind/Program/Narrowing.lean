import Pfind.Program.Exact

/-!
# Narrowing a search

An option that restricts the search, or a stricter value of one, only takes paths out of the
output: a bound on the size, a pattern where there was none, fewer extensions, more directories to
be skipped.

* `FilterConfig.Narrows` : one filter restricts more than another.
* `accepts_of_narrows`, `children_of_narrows` : it accepts fewer entries and enters fewer
  directories.
* `narrowed_paths` : **what a narrowed search reports is part of what the search reports**.
-/

namespace Pfind

open Fs Text

/-- `g` restricts a search at least as much as `f` does. -/
structure FilterConfig.Narrows (f g : FilterConfig) : Prop where
  /-- They search for the same kind of entries. -/
  matchDirs : g.matchDirs = f.matchDirs
  /-- What is skipped is skipped. -/
  skipDirs : f.skipDirs ⊆ g.skipDirs
  /-- The extensions are among those asked for before, if any were. -/
  extensions : f.extensions = [] ∨ g.extensions ≠ [] ∧ g.extensions ⊆ f.extensions
  /-- The pattern is the same if there was one before. -/
  namePattern : f.namePattern = none ∨ g.namePattern = f.namePattern
  /-- The lower bound does not decrease. -/
  minSize : ∀ a ∈ f.minSize, ∃ b ∈ g.minSize, a ≤ b
  /-- The upper bound does not increase. -/
  maxSize : ∀ a ∈ f.maxSize, ∃ b ∈ g.maxSize, b ≤ a

namespace Scheduler

/-- The same search with another filter. -/
def Search.withFilter (S : Search) (filter : FilterConfig) : Search :=
  ⟨S.fs, S.root, filter, S.output⟩

variable {f g : FilterConfig} {S : Search} {dir : PathBuf} {e : DirEntry} {name : Bytes}

/-! ### Entries -/

theorem skip_of_narrows (h : f.Narrows g) (hs : shouldSkipDirBytes name f = true) :
    shouldSkipDirBytes name g = true := by
  have hany : ∀ filter : FilterConfig, shouldSkipDirBytes name filter = true ↔
      ∃ skip ∈ filter.skipDirs, skipMatches (asBytes skip) name = true := by
    intro filter
    cases hd : filter.skipDirs <;> simp [shouldSkipDirBytes, hd]
  obtain ⟨skip, hmem, hm⟩ := (hany f).1 hs
  exact (hany g).2 ⟨skip, h.skipDirs hmem, hm⟩

theorem nameMatches_of_narrows (h : f.Narrows g)
    (hn : nameMatches name g.extensions g.namePattern = true) :
    nameMatches name f.extensions f.namePattern = true := by
  have hiff : ∀ (exts : List String) (pat : Option String), nameMatches name exts pat = true ↔
      (exts = [] ∨ ∃ x ∈ exts, nameMatchesExtension name (asBytes x) = true) ∧
        ∀ p ∈ pat, globMatch (asBytes p) name = true := by
    intro exts pat
    cases exts <;> cases pat <;> simp [nameMatches, anyExtensionMatches]
  obtain ⟨hext, hpat⟩ := (hiff _ _).1 hn
  refine (hiff _ _).2 ⟨h.extensions.imp_right ?_, ?_⟩
  · rintro ⟨hne, hsub⟩
    obtain ⟨x, hx, hm⟩ := hext.resolve_left hne
    exact ⟨x, hsub hx, hm⟩
  · intro p hp
    rcases h.namePattern with hnone | hsame
    · rw [hnone] at hp
      cases hp
    · exact hpat p (by rwa [hsame])

theorem fits_of_narrows (h : S.filter.Narrows g) {size : Option UInt64}
    (hf : (S.withFilter g).Fits size) : S.Fits size := by
  intro hneed
  have hneed' : needSize g S.output = true := by
    have hsome : ∀ {a b : Option UInt64}, (∀ x ∈ a, ∃ y, y ∈ b) → a.isSome = true →
        b.isSome = true := by
      intro a b hab ha
      obtain ⟨x, hx⟩ := Option.isSome_iff_exists.1 ha
      obtain ⟨y, hy⟩ := hab x hx
      exact Option.isSome_iff_exists.2 ⟨y, hy⟩
    simp only [needSize, Bool.or_eq_true] at hneed ⊢
    exact hneed.imp
      (Or.imp_right (hsome fun x hx => (h.minSize x hx).imp fun _ hy => hy.1))
      (hsome fun x hx => (h.maxSize x hx).imp fun _ hy => hy.1)
  obtain ⟨s, hs, hmin, hmax⟩ := hf hneed'
  refine ⟨s, hs, fun a ha => ?_, fun a ha => ?_⟩
  · obtain ⟨b, hb, hab⟩ := h.minSize a ha
    exact UInt64.le_trans hab (hmin b hb)
  · obtain ⟨b, hb, hba⟩ := h.maxSize a ha
    exact UInt64.le_trans (hmax b hb) hba

/-- **A narrowed search accepts fewer entries.** -/
theorem accepts_of_narrows (h : S.filter.Narrows g) (ha : (S.withFilter g).Accepts e) :
    S.Accepts e := by
  obtain ⟨hname, hkind⟩ := ha
  refine ⟨nameMatches_of_narrows h hname, ?_⟩
  have hmode : (S.withFilter g).filter.matchDirs = S.filter.matchDirs := h.matchDirs
  rw [hmode] at hkind
  split_ifs at hkind ⊢ with hdirs
  · refine ⟨hkind.1, Bool.eq_false_iff.2 fun hskip => ?_⟩
    exact Bool.eq_false_iff.1 hkind.2 (skip_of_narrows h hskip)
  · exact ⟨hkind.1, fits_of_narrows h hkind.2⟩

/-! ### Traversals -/

/-- Where an entry accepted here corresponds to one of the same name accepted there, there are
fewer matches in a directory here. -/
theorem matchesIn_sublist {T : Search} {R : Option DirEntry → Option DirEntry → Prop}
    (hall : List.Forall₂ R (S.fs.listing dir) (T.fs.listing dir))
    (hacc : ∀ o e', R o (some e') → T.Accepts e' →
      ∃ e, o = some e ∧ e.fileName = e'.fileName ∧ S.Accepts e) :
    ((T.matchesIn dir).map fun m => entryPath m.dir m.name).Sublist
      ((S.matchesIn dir).map fun m => entryPath m.dir m.name) := by
  rw [Search.matchesIn, Search.matchesIn, List.map_filterMap, List.map_filterMap]
  refine filterMap_sublist_of_forall₂ hall fun o o' p hR hp => ?_
  obtain ⟨m', hm', rfl⟩ := Option.map_eq_some_iff.1 hp
  cases o' with
  | none => cases hm'
  | some e' =>
    obtain ⟨e, rfl, hname, ha⟩ := hacc o e' hR (isSome_matchOf_iff.1 (by rw [hm']; rfl))
    obtain ⟨m, hm⟩ := Option.isSome_iff_exists.1 (isSome_matchOf_iff.2 ha)
    obtain ⟨hmdir, hmname⟩ := matchOf_some hm
    obtain ⟨hmdir', hmname'⟩ := matchOf_some hm'
    rw [hm, Option.map_some, hmdir, hmname, hmdir', hmname', hname]

/-- Where fewer directories are entered, and there are fewer matches in each, the paths found are
part of the others, in the same order. -/
theorem traverse_sublist {T : Search} (dir : PathBuf)
    (hchildren : ∀ d ∈ S.tree.preorder dir, (T.tree.children d).Sublist (S.tree.children d))
    (hmatches : ∀ d ∈ S.tree.preorder dir,
      ((T.matchesIn d).map fun m => entryPath m.dir m.name).Sublist
        ((S.matchesIn d).map fun m => entryPath m.dir m.name)) :
    ((T.traverse dir).map fun m => entryPath m.dir m.name).Sublist
      ((S.traverse dir).map fun m => entryPath m.dir m.name) := by
  rw [Search.traverse, Search.traverse, List.map_flatMap, List.map_flatMap]
  refine List.Sublist.trans (List.Sublist.flatMap ?_ _)
    (List.Sublist.flatMap_right _ hmatches)
  exact Unfolding.preorder_sublist hchildren

/-- **A narrowed search enters fewer directories.** -/
theorem children_of_narrows (h : S.filter.Narrows g) (dir : PathBuf) :
    ((S.withFilter g).tree.children dir).Sublist (S.tree.children dir) := by
  refine filterMap_sublist fun o _ c hc => ?_
  cases o with
  | none => cases hc
  | some e =>
    simp only [Search.childOf, childOf, Option.bind_some, Option.ite_none_right_eq_some,
      Option.some.injEq] at hc ⊢
    obtain ⟨⟨hd, hskip⟩, rfl⟩ := hc
    refine ⟨⟨hd, Bool.eq_false_iff.2 fun hs => ?_⟩, rfl⟩
    exact Bool.eq_false_iff.1 hskip (skip_of_narrows h hs)

/-- **A narrowed search finds part of the paths**, in the order of the whole. -/
theorem traverse_of_narrows (h : S.filter.Narrows g) (dir : PathBuf) :
    (((S.withFilter g).traverse dir).map fun m => entryPath m.dir m.name).Sublist
      ((S.traverse dir).map fun m => entryPath m.dir m.name) := by
  refine traverse_sublist dir (fun d _ => children_of_narrows h d) fun d _ => ?_
  refine matchesIn_sublist (R := Eq) (List.forall₂_same.2 fun _ _ => rfl) ?_
  rintro _ e rfl ha
  exact ⟨e, rfl, rfl, accepts_of_narrows h ha⟩

end Scheduler

namespace Program

open Scheduler

theorem subperm_reports {S T : Search} (ho : T.output = S.output)
    (hsub : ((T.traverse T.root).map fun m => entryPath m.dir m.name).Sublist
      ((S.traverse S.root).map fun m => entryPath m.dir m.name))
    (hline : ∀ m ∈ S.traverse S.root, byte '\n' ∉ entryPath m.dir m.name)
    {n n' : ℕ} [NeZero n] [NeZero n'] {ls : List (Label n)} {ls' : List (Label n')}
    {s : State n} {s' : State n'} (h : (lts S).Run (.init S) ls s)
    (h' : (lts T).Run (.init T) ls' s')
    (hend : s.exitCode.isSome = true) (hend' : s'.exitCode.isSome = true)
    (hok : ∀ l ∈ ls, ¬ l.Failed) (hok' : ∀ l ∈ ls', ¬ l.Failed) :
    ((readReport T.output s'.stdout).found.map Prod.snd).Subperm
        ((readReport S.output s.stdout).found.map Prod.snd) ∧
      ∀ k' ∈ (readReport T.output s'.stdout).count,
        ∃ k ∈ (readReport S.output s.stdout).count, k' ≤ k := by
  obtain ⟨ms, hms, hout⟩ := stdout_of_end h hend hok
  obtain ⟨ms', hms', hout'⟩ := stdout_of_end h' hend' hok'
  have hpaths : (ms'.map fun m => entryPath m.dir m.name).Subperm
      (ms.map fun m => entryPath m.dir m.name) :=
    ((hms'.map _).subperm.trans hsub.subperm).trans (hms.map _).symm.subperm
  have hlen : (T.traverse T.root).length ≤ (S.traverse S.root).length := by
    simpa using hsub.length_le
  have hline' : ∀ m ∈ ms', byte '\n' ∉ entryPath m.dir m.name := by
    intro m hm
    obtain ⟨m', hm', hp⟩ := List.mem_map.1
      (hpaths.subset (List.mem_map_of_mem (f := fun m => entryPath m.dir m.name) hm))
    rw [← hp]
    exact hline m' (hms.subset hm')
  rw [hout, hout', readReport_output fun m hm => hline m (hms.subset hm),
    readReport_output hline', map_found_reported, map_found_reported, reported, reported, ho]
  cases S.output.countOnly with
  | true => exact ⟨List.Subperm.refl [], by rintro _ ⟨⟩; exact ⟨_, rfl, hlen⟩⟩
  | false => exact ⟨hpaths, by rintro _ ⟨⟩⟩

/-- **What a narrowed search reports is part of what the search reports.**  Of two processes that
end without a failed write, however many workers they have, the one whose filter restricts more
prints no path more often than the other, and with `-c` a number that is not larger, provided that
no path found by the other has a newline in it. -/
theorem narrowed_paths (S : Search) {g : FilterConfig} (hg : S.filter.Narrows g)
    (hline : ∀ m ∈ S.traverse S.root, byte '\n' ∉ entryPath m.dir m.name)
    {n n' : ℕ} [NeZero n] [NeZero n'] {ls : List (Label n)} {ls' : List (Label n')}
    {s : State n} {s' : State n'} (h : (lts S).Run (.init S) ls s)
    (h' : (lts (S.withFilter g)).Run (.init (S.withFilter g)) ls' s')
    (hend : s.exitCode.isSome = true) (hend' : s'.exitCode.isSome = true)
    (hok : ∀ l ∈ ls, ¬ l.Failed) (hok' : ∀ l ∈ ls', ¬ l.Failed) :
    ((readReport S.output s'.stdout).found.map Prod.snd).Subperm
        ((readReport S.output s.stdout).found.map Prod.snd) ∧
      ∀ k' ∈ (readReport S.output s'.stdout).count,
        ∃ k ∈ (readReport S.output s.stdout).count, k' ≤ k :=
  subperm_reports (S := S) (T := S.withFilter g) rfl (traverse_of_narrows hg S.root) hline h h'
    hend hend' hok hok'

/-- Files of at least five bytes. -/
def fiveBytes : FilterConfig := { smallLong.filter with minSize := some 5 }

/-- With a lower bound of five bytes one worker reports nothing where two have reported `r/f`. -/
theorem narrowed_paths_small :
    ∃ (s : State 2) (s' : State 1),
      s.stdout = "           3  r/f\ntotal: 3 bytes\n".toList.map byte ∧
      s'.stdout = "total: 0 bytes\n".toList.map byte ∧
      ((readReport smallLong.output s'.stdout).found.map Prod.snd).Subperm
        ((readReport smallLong.output s.stdout).found.map Prod.snd) := by
  obtain ⟨ls, s, hr, hend, hout, hok⟩ := smallLong_run
  obtain ⟨ls', s', hr', hend', hout', hok'⟩ := run_of_outcome
    (show outcome (n := 1) (smallLong.withFilter fiveBytes)
      (List.replicate 26 (some 0) ++ [none, none, none]) =
        some (some 0, "total: 0 bytes\n".toList.map byte, true) by decide)
  have hg : smallLong.filter.Narrows fiveBytes :=
    ⟨rfl, List.Subset.refl _, Or.inl rfl, Or.inl rfl, by rintro _ ⟨⟩, by rintro _ ⟨⟩⟩
  exact ⟨s, s', hout, hout', (narrowed_paths smallLong hg newline_not_mem_smallLong hr hr'
    (by rw [hend]; rfl) (by rw [hend']; rfl) hok hok').1⟩

end Program

end Pfind
