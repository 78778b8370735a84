import Mathlib.Data.List.Nodup
import Pfind.Fs.Path
import Pfind.Scheduler.Conservation

/-!
# Printed paths

The path of an entry is put together from the bytes of the directory, a separator if the directory
needs one, and the name; the path of a subdirectory, which is queued, by `PathBuf::push`.

* `Search.Descends` : the names on the way from the root to a directory; `Descends.eq_joinPath`.
* `preorder_nodup` : the directories of the tree have different paths.
* `printed_paths` : **the path bytes printed for an entry are those of the pushed `PathBuf`, and
  those of the root joined with the names on the way**, and no two entries processed in a run have
  the same.
-/

namespace Pfind

open Fs

namespace Scheduler

open Function

variable {n : ℕ}

/-- Descending from the root along `names` leads to `dir`. -/
inductive Search.Descends (S : Search) : List Bytes → PathBuf → Prop
  | root : Descends S [] S.root
  | down {names : List Bytes} {dir : PathBuf} {e : DirEntry} :
      Descends S names dir → some e ∈ S.fs.listing dir → e.fileType = some .dir →
      Descends S (names ++ [e.fileName]) (dir.push e.fileName)

/-- The path of an entry. -/
def pathOf (dir : PathBuf) (e : Option DirEntry) : Option PathBuf :=
  e.map fun e => entryPath dir e.fileName

variable {S : Search} {names : List Bytes} {dir dir' : PathBuf} {e : DirEntry}

theorem entryPath_eq_push (dir : PathBuf) {name : Bytes} (h : IsName name) :
    entryPath dir name = dir.push name := (PathBuf.push_name dir h).symm

/-- **A directory is the root joined with the names on the way to it.** -/
theorem Search.Descends.eq_joinPath (hw : S.fs.WellNamed) (h : S.Descends names dir) :
    (∀ x ∈ names, IsName x) ∧ dir = joinPath S.root names := by
  induction h with
  | root => exact ⟨by simp, rfl⟩
  | @down names dir e _ he _ ih =>
    obtain ⟨hn, rfl⟩ := ih
    have hname := hw.isName he
    refine ⟨fun x hx => ?_, joinPath_push hn hname⟩
    rcases List.mem_append.1 hx with hx | hx
    · exact hn x hx
    · rwa [List.mem_singleton.1 hx]

theorem entryPath_eq_joinPath (hw : S.fs.WellNamed) (h : S.Descends names dir)
    (he : some e ∈ S.fs.listing dir) :
    entryPath dir e.fileName = joinPath S.root (names ++ [e.fileName]) := by
  obtain ⟨hn, rfl⟩ := h.eq_joinPath hw
  rw [entryPath_eq_push _ (hw.isName he), joinPath_push hn (hw.isName he)]

/-- The path of an entry determines its directory and its name. -/
theorem entryPath_injective (hw : S.fs.WellNamed) {names' : List Bytes} {e' : DirEntry}
    (h : S.Descends names dir) (h' : S.Descends names' dir') (he : some e ∈ S.fs.listing dir)
    (he' : some e' ∈ S.fs.listing dir')
    (hp : entryPath dir e.fileName = entryPath dir' e'.fileName) :
    dir = dir' ∧ e.fileName = e'.fileName := by
  obtain ⟨hn, hd⟩ := h.eq_joinPath hw
  obtain ⟨hn', hd'⟩ := h'.eq_joinPath hw
  rw [entryPath_eq_joinPath hw h he, entryPath_eq_joinPath hw h' he'] at hp
  have hnames := joinPath_injective
    (fun x hx => (List.mem_append.1 hx).elim (hn x) fun hx =>
      List.mem_singleton.1 hx ▸ hw.isName he)
    (fun x hx => (List.mem_append.1 hx).elim (hn' x) fun hx =>
      List.mem_singleton.1 hx ▸ hw.isName he') hp
  obtain ⟨rfl, hlast⟩ := List.append_inj' hnames rfl
  exact ⟨hd.trans hd'.symm, (List.cons.inj hlast).1⟩

theorem Search.Descends.unique (hw : S.fs.WellNamed) {names' : List Bytes}
    (h : S.Descends names dir) (h' : S.Descends names' dir) : names = names' := by
  obtain ⟨hn, hd⟩ := h.eq_joinPath hw
  obtain ⟨hn', hd'⟩ := h'.eq_joinPath hw
  exact joinPath_injective hn hn' (hd.symm.trans hd')

/-! ### The tree -/

theorem childOf_eq_some {c : PathBuf} {e : Option DirEntry} (h : S.childOf dir e = some c) :
    ∃ x, e = some x ∧ x.fileType = some .dir ∧ c = dir.push x.fileName := by
  cases e with
  | none => cases h
  | some x =>
    simp only [Search.childOf, Pfind.childOf, Option.bind_some, Option.ite_none_right_eq_some,
      Option.some.injEq] at h
    exact ⟨x, rfl, h.1.1, h.2.symm⟩

theorem mem_children {c : PathBuf} (h : c ∈ S.tree.children dir) :
    ∃ e, some e ∈ S.fs.listing dir ∧ e.fileType = some .dir ∧ c = dir.push e.fileName := by
  obtain ⟨_, he, hc⟩ := List.mem_filterMap.1 h
  obtain ⟨e, rfl, hft, rfl⟩ := childOf_eq_some hc
  exact ⟨e, he, hft, rfl⟩

theorem descends_of_mem_preorder (h : S.Descends names dir) (hd : dir' ∈ S.tree.preorder dir) :
    ∃ more, S.Descends (names ++ more) dir' := by
  induction dir using S.tree.induction generalizing names with
  | h dir ih =>
    rw [Unfolding.preorder_eq, List.mem_cons, List.mem_flatMap] at hd
    rcases hd with rfl | ⟨c, hc, hd⟩
    · exact ⟨[], by rwa [List.append_nil]⟩
    · obtain ⟨e, he, hft, rfl⟩ := mem_children hc
      obtain ⟨more, hm⟩ := ih _ hc (h.down he hft) hd
      exact ⟨e.fileName :: more, by simpa using hm⟩

/-- **The directories of the tree have different paths.** -/
theorem preorder_nodup (hw : S.fs.WellNamed) (h : S.Descends names dir) :
    (S.tree.preorder dir).Nodup := by
  induction dir using S.tree.induction generalizing names with
  | h dir ih =>
    rw [Unfolding.preorder_eq, List.nodup_cons, List.mem_flatMap, List.nodup_flatMap]
    refine ⟨?_, ?_, ?_⟩
    · rintro ⟨c, hc, hd⟩
      obtain ⟨e, he, hft, rfl⟩ := mem_children hc
      obtain ⟨more, hm⟩ := descends_of_mem_preorder (h.down he hft) hd
      have hlen := congrArg List.length (h.unique hw hm)
      simp at hlen
    · intro c hc
      obtain ⟨e, he, hft, rfl⟩ := mem_children hc
      exact ih _ hc (h.down he hft)
    · show List.Pairwise _ ((S.fs.listing dir).filterMap (S.childOf dir))
      rw [List.pairwise_filterMap]
      refine (hw.distinct dir).imp_of_mem fun {a b} ha hb hne c hc c' hc' => ?_
      obtain ⟨x, rfl, hx, rfl⟩ := childOf_eq_some hc
      obtain ⟨y, rfl, hy, rfl⟩ := childOf_eq_some hc'
      refine List.disjoint_left.2 fun d hd hd' => hne x rfl y rfl ?_
      -- a directory below both children would have two lists of names
      obtain ⟨more, hm⟩ := descends_of_mem_preorder (h.down ha hx) hd
      obtain ⟨more', hm'⟩ := descends_of_mem_preorder (h.down hb hy) hd'
      have hnames := hm.unique hw hm'
      simp only [List.append_assoc, List.singleton_append] at hnames
      exact (List.cons.inj (List.append_cancel_left hnames)).1

/-- **The entries of the tree have different paths.** -/
theorem collect_pathOf_nodup (hw : S.fs.WellNamed) : (S.collect pathOf S.root).Nodup := by
  have hnodup := preorder_nodup hw .root
  rw [Search.collect, List.nodup_flatMap]
  refine ⟨fun d _ => ?_, hnodup.imp_of_mem fun {d d'} hd hd' hne => ?_⟩
  · refine List.pairwise_filterMap.2 ((hw.distinct d).imp fun {a b} hne p hp q hq he => ?_)
    obtain ⟨x, rfl, rfl⟩ := Option.map_eq_some_iff.1 hp
    obtain ⟨y, rfl, rfl⟩ := Option.map_eq_some_iff.1 hq
    exact hne x rfl y rfl (List.append_cancel_left he)
  · refine List.disjoint_left.2 fun p hp hp' => hne ?_
    obtain ⟨_, hx, hp⟩ := List.mem_filterMap.1 hp
    obtain ⟨_, hy, hp'⟩ := List.mem_filterMap.1 hp'
    obtain ⟨x, rfl, rfl⟩ := Option.map_eq_some_iff.1 hp
    obtain ⟨y, rfl, he⟩ := Option.map_eq_some_iff.1 hp'
    obtain ⟨ns, hd⟩ := descends_of_mem_preorder .root hd
    obtain ⟨ns', hd'⟩ := descends_of_mem_preorder .root hd'
    exact (entryPath_injective hw hd hd' hx hy he.symm).1

/-! ### The entries processed in a run -/

theorem Move.entry_rec {i : Fin n} {s s' : State n} {l : Label n} (h : Move S i s l s')
    {j : Fin n} {o : Option DirEntry} {r : Bytes} (hl : l = .entry j dir o r) :
    r = (S.matchOf dir o).elim [] S.printed := by
  cases h <;> cases hl
  rfl

variable [NeZero n] {s : State n} {ls : List (Label n)}

theorem descends_of_entry (h : (lts S).Run (.init S) ls s) {i : Fin n} {o : Option DirEntry}
    {r : Bytes} (hl : Label.entry i dir o r ∈ ls) :
    o ∈ S.fs.listing dir ∧ ∃ names, S.Descends names dir := by
  have hmem : (dir, o) ∈ ls.filterMap (Label.pick fun d e => some (d, e)) :=
    List.mem_filterMap.2 ⟨_, hl, rfl⟩
  obtain ⟨d, hd, hmem⟩ := List.mem_flatMap.1 ((pick_subperm _ h).subset hmem)
  obtain ⟨o', ho, he⟩ := List.mem_filterMap.1 hmem
  cases he
  obtain ⟨names, hn⟩ := descends_of_mem_preorder .root hd
  exact ⟨ho, _, hn⟩

theorem entry_rec (h : (lts S).Run (.init S) ls s) {i : Fin n} {o : Option DirEntry} {r : Bytes}
    (hl : Label.entry i dir o r ∈ ls) : r = (S.matchOf dir o).elim [] S.printed := by
  refine history (P := fun ls _ => ∀ i dir o r, Label.entry i dir o r ∈ ls →
    r = (S.matchOf dir o).elim [] S.printed) h ?_ ?_ i dir o r hl
  · simp
  · intro ls s j l s' _ ih hm i dir o r hl
    rcases List.mem_append.1 hl with hl | hl
    · exact ih i dir o r hl
    · exact hm.entry_rec (List.mem_singleton.1 hl).symm

/-- **Printed paths are the real paths and are unique.**  For every entry processed in a run, the
bytes appended to the buffer are none if it is not a match or nothing is to be printed, and
otherwise a size column in the long format, the path of the entry and a newline; this path is the directory with the name pushed onto it, and the path that a
subdirectory is queued under; and it is the root joined with the names on the way and the name.
No two entries processed in a run have the same path. -/
theorem printed_paths (S : Search) (hw : S.fs.WellNamed) {ls : List (Label n)} {s : State n}
    (h : (lts S).Run (.init S) ls s) :
    (∀ i dir e r, Label.entry i dir (some e) r ∈ ls →
      (r = (S.matchOf dir (some e)).elim [] fun m => if printPaths S.output then
        (if S.output.longFormat then fmtSize (m.size.getD 0) else []) ++
          entryPath dir e.fileName ++ [byte '\n'] else []) ∧
      entryPath dir e.fileName = dir.push e.fileName ∧
      (∀ w child, child ∈ (walkEntry S.fs S.filter S.output dir (some e) w).1.childDirs →
        child ∈ w.childDirs ∨ child = entryPath dir e.fileName) ∧
      ∃ names, S.Descends names dir ∧
        entryPath dir e.fileName = joinPath S.root (names ++ [e.fileName])) ∧
    (ls.filterMap (Label.pick pathOf)).Nodup := by
  refine ⟨fun i dir e r hl => ?_, ?_⟩
  · obtain ⟨he, names, hd⟩ := descends_of_entry h hl
    have hpush := entryPath_eq_push dir (hw.isName he)
    refine ⟨?_, hpush, fun w child hc => ?_, names, hd, entryPath_eq_joinPath hw hd he⟩
    · rw [entry_rec h hl]
      cases hm : S.matchOf dir (some e) with
      | none => rfl
      | some m =>
        obtain ⟨rfl, hname⟩ := matchOf_some hm
        rw [Option.elim_some, Option.elim_some, Search.printed, printed, Match.record, hname]
    · rw [Search.walkEntry_fst, Search.process] at hc
      refine (List.mem_append.1 hc).imp_right fun hc => ?_
      obtain ⟨x, hx, -, rfl⟩ := childOf_eq_some (Option.mem_toList.1 hc)
      cases hx
      exact hpush.symm
  · obtain ⟨l, hp, hsub⟩ := pick_subperm pathOf h
    exact hp.nodup (hsub.nodup (collect_pathOf_nodup hw))

theorem small_listing (dir : PathBuf) : small.fs.listing dir = [] ∨ small.fs.listing dir =
    [some ⟨[byte 'd'], some .dir, none⟩, some ⟨[byte 'f'], some .file, some 3⟩] := by
  simp only [FileSystem.listing, small.fs]
  split_ifs <;> simp

theorem small_wellNamed : small.fs.WellNamed where
  isName {dir e} he := by
    rcases small_listing dir with hl | hl <;> rw [hl] at he
    · cases he
    · simp only [List.mem_cons, Option.some.injEq, List.not_mem_nil, or_false] at he
      rcases he with rfl | rfl <;> exact ⟨by decide, by decide⟩
  distinct dir := by
    rcases small_listing dir with hl | hl <;> rw [hl]
    · exact .nil
    · simp [List.pairwise_cons, show byte 'd' ≠ byte 'f' by decide]

/-- The line `r/f` is emitted for the file, and the paths of both entries of the root differ. -/
theorem printed_paths_small :
    ∃ (ls : List (Label 2)) (s : State 2), (lts small).Run (.init small) ls s ∧
      .entry 0 [byte 'r'] (some ⟨[byte 'f'], some .file, some 3⟩) ("r/f\n".toList.map byte) ∈ ls ∧
      (∃ names, small.Descends names [byte 'r'] ∧
        "r/f".toList.map byte = joinPath small.root (names ++ [[byte 'f']])) ∧
      ls.filterMap (Label.pick pathOf) =
        [[byte 'r', byte '/', byte 'd'], [byte 'r', byte '/', byte 'f']] ∧
      (ls.filterMap (Label.pick pathOf)).Nodup := by
  obtain ⟨ls, s, -, hr, hs⟩ := LTS.Run.of_exec_map step_of_next
    (show (LTS.exec (State.next small) small.schedule (State.init small)).map
      (fun x => (decide (.entry 0 [byte 'r'] (some ⟨[byte 'f'], some .file, some 3⟩)
          ("r/f\n".toList.map byte) ∈ x.1), x.1.filterMap (Label.pick pathOf))) =
        some (true, [[byte 'r', byte '/', byte 'd'], [byte 'r', byte '/', byte 'f']]) by decide)
  simp only [Prod.mk.injEq, decide_eq_true_eq] at hs
  obtain ⟨hline, hpick⟩ := hs
  obtain ⟨hpaths, hnodup⟩ := printed_paths small small_wellNamed hr
  obtain ⟨-, -, -, names, hd, hjoin⟩ := hpaths _ _ _ _ hline
  exact ⟨ls, s, hr, hline, ⟨names, hd, hjoin⟩, hpick, hnodup⟩

end Scheduler

end Pfind
