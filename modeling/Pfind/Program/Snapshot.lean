import Pfind.Program.Unread
import Pfind.Scheduler.Paths

/-!
# Runs over a changing directory tree

The tree need not stay as it is while the program is running: every step may find another one.  One
answer is taken at once, such as the listing of a directory.  What a worker gets when it opens the
directory are the names and the types of the entries; the metadata of a file, which the model has
in the listing, is looked up a little later, when the entry is processed.

* `query_nodup` : no question is asked twice.
* `FileSystem.ofListings` : listings of bounded depth make up a file system.
* `FileSystem.WellNamed.exists_patched` : the listing of a directory can be replaced.
* `changingTree` : the program over a tree that changes.
* `snapshot_run` : **a run over a changing tree is a run over a fixed one**: the listings and
  metadata that the program has got, put together.
-/

namespace Pfind

open Fs

open Function (update)

namespace Fs

variable {fs fs' new : FileSystem} {dir path : PathBuf} {name : Bytes}

theorem PathBuf.length_lt_push (p : PathBuf) (h : IsName name) :
    p.length < (p.push name).length := by
  have hpos := List.length_pos_iff.2 h.1
  rw [PathBuf.push_name p h, List.length_append, List.length_append]
  omega

/-- Listings of directories with paths of bounded length.  The path of a subdirectory is longer, so
that there are finitely many levels. -/
def FileSystem.ofListings (readDir : PathBuf → Option (List (Option DirEntry)))
    (metadata : PathBuf → Option UInt64) (bound : ℕ)
    (hbound : ∀ dir es, readDir dir = some es → dir.length < bound)
    (hname : ∀ dir es e, readDir dir = some es → some e ∈ es → IsName e.fileName) :
    FileSystem where
  readDir := readDir
  metadata := metadata
  height dir := bound - dir.length
  height_lt {dir es e} hr he _ := by
    have hd := hbound dir es hr
    have hlt := PathBuf.length_lt_push dir (hname dir es e hr he)
    omega

/-- A file system with nothing on it. -/
def FileSystem.empty : FileSystem :=
  .ofListings (fun _ => none) (fun _ => none) 0 (by simp) (by simp)

/-- Only directories with paths of bounded length can be read. -/
def FileSystem.Bounded (fs : FileSystem) : Prop :=
  ∃ bound, ∀ dir es, fs.readDir dir = some es → dir.length < bound

theorem FileSystem.WellNamed.isName_of_readDir (hw : fs.WellNamed) {es : List (Option DirEntry)}
    {e : DirEntry} (hr : fs.readDir dir = some es) (he : some e ∈ es) : IsName e.fileName :=
  hw.isName (show some e ∈ fs.listing dir by rwa [listing, hr])

theorem FileSystem.WellNamed.of_readDir (hw : fs.WellNamed) (hw' : fs'.WellNamed)
    (h : ∀ dir, new.readDir dir = fs.readDir dir ∨ new.readDir dir = fs'.readDir dir) :
    new.WellNamed where
  isName {dir e} he := by
    rcases h dir with hd | hd <;> rw [listing, hd] at he
    · exact hw.isName he
    · exact hw'.isName he
  distinct dir := by
    rcases h dir with hd | hd <;> rw [listing, hd]
    · exact hw.distinct dir
    · exact hw'.distinct dir

theorem update_readDir (fs fs' : FileSystem) (path dir : PathBuf) :
    update fs.readDir path (fs'.readDir path) dir = fs.readDir dir ∨
      dir = path ∧ update fs.readDir path (fs'.readDir path) dir = fs'.readDir dir := by
  by_cases hd : dir = path
  · subst hd
    exact Or.inr ⟨rfl, Function.update_self ..⟩
  · exact Or.inl (Function.update_of_ne hd ..)

/-- **The listing of a directory can be replaced** by that of another file system. -/
theorem FileSystem.WellNamed.exists_patched (hw : fs.WellNamed) (hb : fs.Bounded)
    (hw' : fs'.WellNamed) (path : PathBuf) : ∃ new : FileSystem, new.WellNamed ∧ new.Bounded ∧
      new.readDir = update fs.readDir path (fs'.readDir path) ∧ new.metadata = fs.metadata := by
  obtain ⟨bound, hbound⟩ := hb
  -- the new listing may be one of a directory that had none, with a longer path
  have hlt : ∀ dir es, update fs.readDir path (fs'.readDir path) dir = some es →
      dir.length < max bound (path.length + 1) := by
    intro dir es hr
    rcases update_readDir fs fs' path dir with hd | ⟨rfl, -⟩
    · exact lt_max_of_lt_left (hbound dir es (hd ▸ hr))
    · exact lt_max_of_lt_right (Nat.lt_succ_self _)
  refine ⟨.ofListings _ fs.metadata _ hlt fun dir es e hr he => ?_,
    hw.of_readDir hw' fun dir => ?_, ⟨_, hlt⟩, rfl, rfl⟩
  · rcases update_readDir fs fs' path dir with hd | ⟨-, hd⟩
    · exact hw.isName_of_readDir (hd ▸ hr) he
    · exact hw'.isName_of_readDir (hd ▸ hr) he
  · exact (update_readDir fs fs' path dir).imp_right And.right

end Fs

namespace Scheduler

variable {n : ℕ} {S : Search}

/-- **An answer can be replaced** by that of another file system. -/
theorem Question.exists_patched {fs fs' : FileSystem} (q : Question) (h : fs.WellNamed ∧ fs.Bounded)
    (hw' : fs'.WellNamed) :
    ∃ new : FileSystem, (new.WellNamed ∧ new.Bounded) ∧ q.Agree fs' new ∧
      ∀ q', q' ≠ q → q'.Agree fs new := by
  obtain ⟨hw, hb⟩ := h
  cases q with
  | listing path =>
    obtain ⟨new, hnew, hbound, hread, hmeta⟩ := hw.exists_patched hb hw' path
    refine ⟨new, ⟨hnew, hbound⟩, ?_, fun q' hne => ?_⟩
    · show new.readDir path = fs'.readDir path
      rw [hread, Function.update_self]
    · cases q' with
      | metadata p => exact congrFun hmeta p
      | listing dir =>
        show new.readDir dir = fs.readDir dir
        rw [hread, Function.update_of_ne fun he => hne (congrArg _ he)]
  | metadata path =>
    refine ⟨{ fs with metadata := update fs.metadata path (fs'.metadata path) },
      ⟨⟨hw.isName, hw.distinct⟩, hb⟩, Function.update_self .., fun q' hne => ?_⟩
    cases q' with
    | listing dir => rfl
    | metadata p =>
      exact Function.update_of_ne (fun he => hne (congrArg Question.metadata he)) ..

variable [NeZero n] {s : State n} {ls : List (Label n)}

/-- **No question is asked twice.** -/
theorem query_nodup (hw : S.fs.WellNamed) (h : (lts S).Run (.init S) ls s) :
    (ls.filterMap S.query).Nodup := by
  -- a directory is read once, as it is in the tree once; and metadata is asked for of the
  -- subdirectories found, each of which is found once
  have hread : (reads ls).Nodup :=
    Multiset.nodup_of_le (reads_le h) (preorder_nodup hw .root)
  have hpick : (ls.filterMap (Label.pick S.childOf)).Nodup := by
    obtain ⟨cs, hperm, hsub⟩ := pick_subperm S.childOf h
    have hall := (Unfolding.preorder_perm S.root).nodup_iff.1 (preorder_nodup hw .root)
    exact hperm.nodup_iff.1 (hsub.nodup (List.nodup_cons.1 hall).2)
  rw [reads, List.Nodup, List.pairwise_filterMap] at hread
  rw [List.Nodup, List.pairwise_filterMap] at hpick ⊢
  refine (hread.and hpick).imp fun {l l'} ⟨hr, hp⟩ q hq q' hq' => ?_
  rcases mem_query.1 hq with ⟨dir, hd, rfl⟩ | ⟨c, hc, rfl⟩ <;>
    rcases mem_query.1 hq' with ⟨dir', hd', rfl⟩ | ⟨c', hc', rfl⟩
  · exact fun he => hr dir hd dir' hd' (Question.listing.inj he)
  · exact nofun
  · exact nofun
  · exact fun he => hp c hc c' hc' (Question.metadata.inj he)

end Scheduler

namespace Program

open Scheduler (Search Question)

variable {n : ℕ}

/-- The program, each step of which may find another directory tree. -/
def changingTree (S : Search) : LTS (State n) (FileSystem × Label n) :=
  LTS.changing fun fs => lts (S.withFs fs)

theorem changingTree_run {S : Search} {fs : FileSystem} {s s' : State n} {ls : List (Label n)}
    (h : (lts (S.withFs fs)).Run s ls s') :
    (changingTree S).Run s (ls.map fun l => (fs, l)) s' :=
  LTS.Run.changing h

/-- **A run over a changing tree is a run over a snapshot.**  Whatever happens to the directory tree
while the program is running, so that each step finds another one, there is a fixed tree on which
the program, with the same steps, gets to the same state, and so has the same output and exit code:
it has the listings and the metadata that the program has got. -/
theorem snapshot_run (S : Search) [NeZero n] {xs : List (FileSystem × Label n)} {s : State n}
    (h : (changingTree S).Run (.init S) xs s)
    (hw : ∀ x ∈ xs, x.1.WellNamed) :
    ∃ fs : FileSystem, fs.WellNamed ∧
      (lts (S.withFs fs)).Run (.init (S.withFs fs)) (xs.map Prod.snd) s ∧
      ∀ x ∈ xs, ∀ q ∈ query S x.2, q.Agree x.1 fs := by
  -- the snapshot grows from an empty one with every answer
  have hempty : FileSystem.empty.WellNamed ∧ FileSystem.empty.Bounded :=
    ⟨⟨nofun, fun _ => .nil⟩, 0, nofun⟩
  have honce : ∀ {fs : FileSystem} {ls : List (Label n)} {s : State n},
      fs.WellNamed ∧ fs.Bounded → (lts (S.withFs fs)).Run (.init S) ls s →
      (ls.filterMap (query S)).Nodup := fun {fs ls s} hfs hr => by
    rw [filterMap_query]
    exact Scheduler.query_nodup (S := S.withFs fs) hfs.1 (workers_run hr)
  obtain ⟨fs, ⟨hfs, -⟩, hr, hq⟩ :=
    (asking S).run_of_changing Question.exists_patched honce hempty h hw
  exact ⟨fs, hfs, hr, hq⟩

/-- The small tree when `r/f` has been moved to `r/d/f`. -/
def moved : FileSystem :=
  .ofListings
    (fun p => if p = [byte 'r'] then some [some ⟨[byte 'd'], some .dir, none⟩]
      else if p = [byte 'r', byte '/', byte 'd'] then some [some ⟨[byte 'f'], some .file, some 3⟩]
      else none)
    (fun _ => none) 4
    (by intro dir es h; split_ifs at h with h1 h2 <;> simp [*])
    (by
      intro dir es e h he
      split_ifs at h with h1 h2 <;> cases h <;> cases List.mem_singleton.1 he <;>
        exact ⟨by decide, by decide⟩)

theorem moved_listing (dir : PathBuf) : moved.listing dir = [] ∨
    moved.listing dir = [some ⟨[byte 'd'], some .dir, none⟩] ∨
    moved.listing dir = [some ⟨[byte 'f'], some .file, some 3⟩] := by
  simp only [FileSystem.listing, moved, FileSystem.ofListings]
  split_ifs <;> simp

theorem moved_wellNamed : moved.WellNamed where
  isName {dir e} he := by
    rcases moved_listing dir with hl | hl | hl <;> rw [hl] at he
    · cases he
    · cases List.mem_singleton.1 he
      exact ⟨by decide, by decide⟩
    · cases List.mem_singleton.1 he
      exact ⟨by decide, by decide⟩
  distinct dir := by
    rcases moved_listing dir with hl | hl | hl <;> rw [hl]
    · exact .nil
    · exact List.pairwise_singleton ..
    · exact List.pairwise_singleton ..

/-- The file is moved when it has been printed, and is found once more. -/
theorem snapshot_run_moved :
    ∃ (xs : List (FileSystem × Label 1)) (s : State 1),
      (changingTree Scheduler.small).Run (.init Scheduler.small) xs s ∧
        (∀ x ∈ xs, x.1 = Scheduler.small.fs ∨ x.1 = moved) ∧
        s.exitCode = some 0 ∧ s.stdout = "r/f\nr/d/f\ntotal: 6 bytes\n".toList.map byte ∧
        ∃ fs : FileSystem, (lts (Scheduler.small.withFs fs)).Run
          (.init (Scheduler.small.withFs fs)) (xs.map Prod.snd) s := by
  obtain ⟨⟨ls, s⟩, he, hs⟩ := Option.bind_eq_some_iff.1 (show
    (LTS.exec (State.nextOf Scheduler.small) (List.replicate 4 (some (0 : Fin 1)))
      (State.init Scheduler.small)).bind (fun x =>
        (LTS.exec (State.nextOf (Scheduler.small.withFs moved))
          (List.replicate 23 (some 0) ++ [none, none, none]) x.2).map
            fun y : List (Label 1) × State 1 => (y.2.exitCode, y.2.stdout)) =
      some (some 0, "r/f\nr/d/f\ntotal: 6 bytes\n".toList.map byte) by decide)
  obtain ⟨ls', s', -, hr', hout⟩ := LTS.Run.of_exec_map step_of_nextOf hs
  simp only [Prod.mk.injEq] at hout
  have hr : (lts (Scheduler.small.withFs Scheduler.small.fs)).Run (.init Scheduler.small) ls s :=
    LTS.Run.of_exec step_of_nextOf he
  have hrun := (changingTree_run hr).append (changingTree_run hr')
  have hfs : ∀ x ∈ (ls.map fun l => (Scheduler.small.fs, l)) ++ ls'.map fun l => (moved, l),
      x.1 = Scheduler.small.fs ∨ x.1 = moved := by
    simp only [List.mem_append, List.mem_map]
    rintro _ (⟨l, -, rfl⟩ | ⟨l, -, rfl⟩)
    · exact Or.inl rfl
    · exact Or.inr rfl
  have hw : ∀ x ∈ (ls.map fun l => (Scheduler.small.fs, l)) ++ ls'.map fun l => (moved, l),
      x.1.WellNamed := fun x hx => (hfs x hx).elim
        (fun h => h ▸ Scheduler.small_wellNamed) (fun h => h ▸ moved_wellNamed)
  obtain ⟨fs, -, hsnap, -⟩ := snapshot_run Scheduler.small hrun hw
  exact ⟨_, s', hrun, hfs, hout.1, hout.2, fs, hsnap⟩

end Program

end Pfind
