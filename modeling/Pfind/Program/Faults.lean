import Pfind.Program.Narrowing
import Pfind.Program.Unread

/-!
# Errors of the file system

A directory that cannot be read, an entry that cannot be read or has no type, metadata that cannot
be read: `walk_one` goes on past each of them and says nothing.

* `Fails`, `FileSystem.Degrades` : an entry, or a file system, with more errors than another.
* `accepts_of_fails`, `childOf_of_fails` : an error turns no entry into a match, and none into a
  subdirectory.
* `errors_only_hide` : **errors take paths out of the output, and do nothing else**, least of all
  to the exit code.
-/

namespace Pfind

open Fs

/-- The second entry is the first one with more errors. -/
def Fails : Option DirEntry → Option DirEntry → Prop
  | _, none => True
  | none, some _ => False
  | some e, some e' => e'.fileName = e.fileName ∧
      (e'.fileType = none ∨ e'.fileType = e.fileType) ∧
      (e'.metadata = none ∨ e'.metadata = e.metadata)

/-- The second file system is the first one with more errors. -/
structure Fs.FileSystem.Degrades (fs fs' : FileSystem) : Prop where
  /-- A directory cannot be read, or some of its entries. -/
  readDir : ∀ dir, fs'.readDir dir = none ∨
    ∃ es es', fs.readDir dir = some es ∧ fs'.readDir dir = some es' ∧ List.Forall₂ Fails es es'
  /-- Metadata cannot be read. -/
  metadata : ∀ path, fs'.metadata path = none ∨ fs'.metadata path = fs.metadata path

namespace Scheduler

variable {S : Search} {fs : FileSystem} {dir : PathBuf} {o o' : Option DirEntry}

theorem listing_of_degrades (h : S.fs.Degrades fs) (dir : PathBuf) :
    fs.listing dir = [] ∨ List.Forall₂ Fails (S.fs.listing dir) (fs.listing dir) := by
  rcases h.readDir dir with hnone | ⟨es, es', hes, hes', hall⟩
  · exact Or.inl (by simp [FileSystem.listing, hnone])
  · refine Or.inr ?_
    rwa [FileSystem.listing, FileSystem.listing, hes, hes']

/-- **An error turns no entry into a match.** -/
theorem accepts_of_fails {e e' : DirEntry} (h : Fails (some e) (some e'))
    (ha : (S.withFs fs).Accepts e') : S.Accepts e := by
  obtain ⟨hname, htype, hmeta⟩ := h
  obtain ⟨hn, hkind⟩ := ha
  rw [hname] at hn hkind
  refine ⟨hn, ?_⟩
  show if S.filter.matchDirs then _ else _
  have hmode : (S.withFs fs).filter.matchDirs = S.filter.matchDirs := rfl
  rw [hmode] at hkind
  split_ifs at hkind ⊢
  · obtain ⟨hd, hskip⟩ := hkind
    exact ⟨(htype.resolve_left (by simp [hd])).symm.trans hd, hskip⟩
  · obtain ⟨hf, hfits⟩ := hkind
    refine ⟨(htype.resolve_left (by simp [hf])).symm.trans hf, fun hneed => ?_⟩
    obtain ⟨size, hsize, hbounds⟩ := hfits hneed
    -- a size that is needed and missing would have kept the file out
    have hsome : e'.metadata = e.metadata := hmeta.resolve_left (by simp [Option.mem_def.1 hsize])
    exact ⟨size, hsome ▸ hsize, hbounds⟩

/-- **An error turns no entry into a subdirectory.** -/
theorem childOf_of_fails {c : PathBuf} (h : Fails o o') (hc : S.childOf dir o' = some c) :
    S.childOf dir o = some c := by
  cases o' with
  | none => cases hc
  | some e' =>
    cases o with
    | none => cases h
    | some e =>
      obtain ⟨hname, htype, -⟩ := h
      simp only [Search.childOf, childOf, Option.bind_some, Option.ite_none_right_eq_some,
        Option.some.injEq, hname] at hc ⊢
      obtain ⟨⟨hd, hskip⟩, rfl⟩ := hc
      exact ⟨⟨(htype.resolve_left (by simp [hd])).symm.trans hd, hskip⟩, rfl⟩

theorem children_of_degrades (h : S.fs.Degrades fs) (dir : PathBuf) :
    ((S.withFs fs).tree.children dir).Sublist (S.tree.children dir) := by
  show ((fs.listing dir).filterMap (S.childOf dir)).Sublist _
  rcases listing_of_degrades h dir with hnil | hall
  · rw [hnil]
    exact List.nil_sublist _
  · exact filterMap_sublist_of_forall₂ hall fun _ _ _ hf hc => childOf_of_fails hf hc

/-- **With errors part of the paths is found**, in the order of the whole. -/
theorem traverse_of_degrades (h : S.fs.Degrades fs) (dir : PathBuf) :
    (((S.withFs fs).traverse dir).map fun m => entryPath m.dir m.name).Sublist
      ((S.traverse dir).map fun m => entryPath m.dir m.name) := by
  refine traverse_sublist dir (fun d _ => children_of_degrades h d) fun d _ => ?_
  -- a directory that cannot be read has no matches, and another has them entry by entry
  rcases listing_of_degrades h d with hnil | hall
  · have hnone : (S.withFs fs).matchesIn d = [] := by
      show (fs.listing d).filterMap _ = []
      rw [hnil, List.filterMap_nil]
    rw [hnone]
    exact List.nil_sublist _
  · refine matchesIn_sublist (T := S.withFs fs) hall fun o e' hf ha => ?_
    cases o with
    | none => cases hf
    | some e => exact ⟨e, rfl, hf.1.symm, accepts_of_fails hf ha⟩

end Scheduler

namespace Program

open Scheduler

/-- **Errors take paths out of the output, and do nothing else.**  Of two processes that end
without a failed write, however many workers they have, the one on the file system with more errors
prints no path more often than the other, and with `-c` a number that is not larger, provided that
no path found by the other has a newline in it; and it exits with code 0 all the same. -/
theorem errors_only_hide (S : Search) {fs : FileSystem} (hfs : S.fs.Degrades fs)
    (hline : ∀ m ∈ S.traverse S.root, byte '\n' ∉ entryPath m.dir m.name)
    {n n' : ℕ} [NeZero n] [NeZero n'] {ls : List (Label n)} {ls' : List (Label n')}
    {s : State n} {s' : State n'} (h : (lts S).Run (.init S) ls s)
    (h' : (lts (S.withFs fs)).Run (.init (S.withFs fs)) ls' s')
    (hend : s.exitCode.isSome = true) (hend' : s'.exitCode.isSome = true)
    (hok : ∀ l ∈ ls, ¬ l.Failed) (hok' : ∀ l ∈ ls', ¬ l.Failed) :
    ((readReport S.output s'.stdout).found.map Prod.snd).Subperm
        ((readReport S.output s.stdout).found.map Prod.snd) ∧
      (∀ k' ∈ (readReport S.output s'.stdout).count,
        ∃ k ∈ (readReport S.output s.stdout).count, k' ≤ k) ∧
      s'.exitCode = some 0 := by
  obtain ⟨hfound, hcount⟩ := subperm_reports (S := S) (T := S.withFs fs) rfl
    (traverse_of_degrades hfs S.root) hline h h' hend hend' hok hok'
  exact ⟨hfound, hcount, (main_of_end h' hend' hok').2⟩

/-- The small tree, in which the metadata of `r/f` cannot be read. -/
def faulty : FileSystem where
  readDir p :=
    if p = [byte 'r'] then
      some [some ⟨[byte 'd'], some .dir, none⟩, some ⟨[byte 'f'], some .file, none⟩]
    else small.fs.readDir p
  metadata := small.fs.metadata
  height := small.fs.height
  height_lt {dir es e} hr he hd := by
    split_ifs at hr with hp
    · subst hp
      cases hr
      simp only [List.mem_cons, Option.some.injEq, List.not_mem_nil, or_false] at he
      rcases he with rfl | rfl
      · decide
      · cases hd
    · exact small.fs.height_lt hr he hd

theorem degrades_faulty : small.fs.Degrades faulty where
  readDir dir := by
    by_cases hd : dir = [byte 'r']
    · subst hd
      refine Or.inr ⟨_, _, rfl, rfl, .cons ?_ (.cons ?_ .nil)⟩
      · exact ⟨rfl, Or.inr rfl, Or.inr rfl⟩
      · exact ⟨rfl, Or.inr rfl, Or.inl rfl⟩
    · have hsame : faulty.readDir dir = small.fs.readDir dir := if_neg hd
      cases hes : small.fs.readDir dir with
      | none => exact Or.inl (hsame.trans hes)
      | some es =>
        refine Or.inr ⟨es, es, rfl, hsame.trans hes, List.forall₂_same.2 fun o _ => ?_⟩
        cases o with
        | none => trivial
        | some e => exact ⟨rfl, Or.inr rfl, Or.inr rfl⟩
  metadata _ := Or.inr rfl

/-- Where the size of `r/f` is to be printed and cannot be read, the file is passed over. -/
theorem errors_only_hide_small :
    ∃ (s : State 2) (s' : State 1),
      s.stdout = "           3  r/f\ntotal: 3 bytes\n".toList.map byte ∧
      s'.stdout = "total: 0 bytes\n".toList.map byte ∧ s'.exitCode = some 0 ∧
      ((readReport smallLong.output s'.stdout).found.map Prod.snd).Subperm
        ((readReport smallLong.output s.stdout).found.map Prod.snd) := by
  obtain ⟨ls, s, hr, hend, hout, hok⟩ := smallLong_run
  obtain ⟨ls', s', hr', hend', hout', hok'⟩ := run_of_outcome
    (show outcome (n := 1) (smallLong.withFs faulty)
      (List.replicate 26 (some 0) ++ [none, none, none]) =
        some (some 0, "total: 0 bytes\n".toList.map byte, true) by decide)
  obtain ⟨hfound, -, hcode⟩ := errors_only_hide smallLong degrades_faulty newline_not_mem_smallLong
    hr hr' (by rw [hend]; rfl) (by rw [hend']; rfl) hok hok'
  exact ⟨s, s', hout, hout', hcode, hfound⟩

end Program

end Pfind
