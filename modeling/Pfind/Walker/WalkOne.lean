import Pfind.Walker.Match

/-!
# A call of `walk_one`

`walkOne` is a call of `walk_one` on one worker, with the buffers that it writes to stdout and the
operations on the pool that it performs, in order.  A failing write would end the process, so here
every write succeeds.

* `Found` : what the loop over the entries does to the scratch state, in terms of the matches and
  the subdirectories found.  One iteration does it (`found_walkStep`), and so does the loop
  (`found_walkLoop`).
* `count_eq_print` : **counting agrees with printing**: with and without `--count`, `walk_one`
  counts the same matches, adds the same sizes and performs the same operations on the pool; and
  printing appends one record for each match counted.
-/

namespace Pfind

open Fs

/-- An operation of `walk_one` on the pool. -/
inductive PoolOp where
  /-- `pool.add_dirs(n)`. -/
  | addDirs (n : ℕ)
  /-- `local.push(child)`. -/
  | push (child : PathBuf)
  /-- `pool.maybe_unpark()`. -/
  | maybeUnpark
  /-- `pool.sub_dirs(n)`. -/
  | subDirs (n : ℕ)
  deriving DecidableEq

/-- What a call of `walk_one` leaves behind. -/
structure Walked where
  /-- The scratch state. -/
  state : WorkerState
  /-- The buffers written to stdout, in order. -/
  written : List Bytes
  /-- The operations on the pool, in order. -/
  ops : List PoolOp

/-- `flush_out` : the scratch state behind it, and the buffer written, if any. -/
def flushOut (st : WorkerState) : WorkerState × List Bytes :=
  if st.out.isEmpty then (st, []) else ({ st with out := [] }, [st.out])

section

variable (fs : FileSystem) (filter : FilterConfig) (output : OutputConfig) (dir : PathBuf)

/-- One iteration of the loop of `walk_one`, with the flush that it may end in. -/
def walkStep (entry : Option DirEntry) (st : WorkerState) : WorkerState × List Bytes :=
  let x := walkEntry fs filter output dir entry st
  if x.2 then flushOut x.1 else (x.1, [])

/-- The loop of `walk_one` over the entries of `dir`. -/
def walkLoop : List (Option DirEntry) → WorkerState → WorkerState × List Bytes
  | [], st => (st, [])
  | entry :: rest, st =>
    let x := walkStep fs filter output dir entry st
    let y := walkLoop rest x.1
    (y.1, x.2 ++ y.2)

/-- The operations on the pool that publish the subdirectories found. -/
def publishOps (childDirs : List PathBuf) : List PoolOp :=
  if 0 < childDirs.length then
    .addDirs childDirs.length :: childDirs.map .push ++ [.maybeUnpark, .subDirs 1]
  else [.subDirs 1]

/-- `walk_one`. -/
def walkOne (st : WorkerState) : Walked :=
  match fs.readDir dir with
  | none => ⟨st, [], [.subDirs 1]⟩
  | some entries =>
    let x := walkLoop fs filter output dir entries { st with childDirs := [] }
    ⟨{ x.1 with childDirs := [] }, x.2, publishOps x.1.childDirs⟩

/-- The matches among the entries of `dir`. -/
def matchesIn : List Match := (fs.listing dir).filterMap (matchOf fs filter output dir)

end

/-- The known sizes of some matches, added up. -/
def knownSize (ms : List Match) : UInt64 := ms.foldr (fun m size => m.known + size) 0

theorem knownSize_append (ms ms' : List Match) :
    knownSize (ms ++ ms') = knownSize ms + knownSize ms' := by
  induction ms with
  | nil => simp [knownSize]
  | cons m ms ih =>
    show m.known + knownSize (ms ++ ms') = m.known + knownSize ms + knownSize ms'
    rw [ih, UInt64.add_assoc]

/-- From `st`, with the matches `ms` and the subdirectories `cs` found, the scratch state has become
`st'` and the buffers `ws` have been written. -/
structure Found (output : OutputConfig) (ms : List Match) (cs : List PathBuf)
    (st st' : WorkerState) (ws : List Bytes) : Prop where
  count : st'.localCount = st.localCount + ms.length
  size : st'.localSize = st.localSize + knownSize ms
  childDirs : st'.childDirs = st.childDirs ++ cs
  out : ws.flatten ++ st'.out = st.out ++ ms.flatMap (printed output)
  silent : printPaths output = false → ws = []

variable {fs : FileSystem} {filter : FilterConfig} {output : OutputConfig} {dir : PathBuf}
  {st st₁ st₂ : WorkerState}

theorem Found.nil (st : WorkerState) : Found output [] [] st st [] := by
  constructor <;> simp [knownSize]

theorem Found.append {ms ms' : List Match} {cs cs' : List PathBuf} {ws ws' : List Bytes}
    (h : Found output ms cs st st₁ ws) (h' : Found output ms' cs' st₁ st₂ ws') :
    Found output (ms ++ ms') (cs ++ cs') st st₂ (ws ++ ws') where
  count := by rw [h'.count, h.count, List.length_append, Nat.add_assoc]
  size := by rw [h'.size, h.size, knownSize_append, UInt64.add_assoc]
  childDirs := by rw [h'.childDirs, h.childDirs, List.append_assoc]
  out := by
    rw [List.flatten_append, List.append_assoc, h'.out, ← List.append_assoc, h.out,
      List.append_assoc, List.flatMap_append]
  silent hp := by rw [h.silent hp, h'.silent hp, List.nil_append]

theorem Found.out_eq {ms : List Match} {cs : List PathBuf} {ws : List Bytes}
    (h : Found output ms cs st st₁ ws) (hp : printPaths output = false) : st₁.out = st.out := by
  have hnil : ms.flatMap (printed output) = [] :=
    List.flatMap_eq_nil_iff.2 fun m _ => by rw [printed, hp]; rfl
  have hout := h.out
  rwa [h.silent hp, hnil, List.append_nil, List.flatten_nil, List.nil_append] at hout

theorem found_walkEntry (fs : FileSystem) (filter : FilterConfig) (entry : Option DirEntry) :
    Found output (matchOf fs filter output dir entry).toList (childOf filter dir entry).toList st
      (walkEntry fs filter output dir entry st).1 [] := by
  rw [walkEntry_eq]
  cases matchOf fs filter output dir entry <;>
    constructor <;> simp [WorkerState.addMatch, WorkerState.add, knownSize]

theorem found_flushOut (hp : printPaths output = true) :
    Found output [] [] st (flushOut st).1 (flushOut st).2 := by
  unfold flushOut
  split_ifs with h
  · exact .nil st
  · constructor <;> simp [hp, knownSize]

theorem printPaths_of_flush {entry : Option DirEntry}
    (h : (walkEntry fs filter output dir entry st).2 = true) : printPaths output = true := by
  rw [walkEntry_eq] at h
  cases hm : matchOf fs filter output dir entry with
  | none =>
    rw [hm] at h
    cases h
  | some m =>
    simp only [hm, WorkerState.addMatch, Bool.and_eq_true] at h
    exact h.1

/-- **One iteration** finds the match and the subdirectory that the entry is. -/
theorem found_walkStep (entry : Option DirEntry) :
    Found output (matchOf fs filter output dir entry).toList (childOf filter dir entry).toList st
      (walkStep fs filter output dir entry st).1 (walkStep fs filter output dir entry st).2 := by
  have hentry : Found output (matchOf fs filter output dir entry).toList _ st _ [] :=
    found_walkEntry fs filter entry
  unfold walkStep
  dsimp only
  split_ifs with hf
  · simpa using hentry.append (found_flushOut (printPaths_of_flush hf))
  · exact hentry

theorem toList_append_filterMap {α β : Type*} (f : α → Option β) (a : α) (as : List α) :
    (f a).toList ++ as.filterMap f = (a :: as).filterMap f := by
  cases h : f a <;> simp [h]

/-- **The loop** finds the matches and the subdirectories among the entries. -/
theorem found_walkLoop (fs : FileSystem) (entries : List (Option DirEntry)) (st : WorkerState) :
    Found output (entries.filterMap (matchOf fs filter output dir))
      (entries.filterMap (childOf filter dir)) st (walkLoop fs filter output dir entries st).1
      (walkLoop fs filter output dir entries st).2 := by
  induction entries generalizing st with
  | nil => exact .nil st
  | cons entry rest ih =>
    rw [← toList_append_filterMap, ← toList_append_filterMap]
    exact (found_walkStep entry).append (ih _)

/-- What a call of `walk_one` does to the scratch state. -/
theorem walkOne_state (fs : FileSystem) (filter : FilterConfig) (output : OutputConfig)
    (dir : PathBuf) (st : WorkerState) :
    Found output (matchesIn fs filter output dir) [] { st with childDirs := [] }
      { (walkOne fs filter output dir st).state with childDirs := [] }
      (walkOne fs filter output dir st).written := by
  unfold walkOne matchesIn FileSystem.listing
  cases fs.readDir dir with
  | none => exact .nil _
  | some entries =>
    have h : Found output _ (entries.filterMap (childOf filter dir)) { st with childDirs := [] }
        _ _ := found_walkLoop fs entries _
    exact ⟨h.count, h.size, rfl, h.out, h.silent⟩

/-- What a call of `walk_one` does to the pool. -/
theorem walkOne_ops (st : WorkerState) : (walkOne fs filter output dir st).ops =
    publishOps ((fs.listing dir).filterMap (childOf filter dir)) := by
  unfold walkOne FileSystem.listing
  cases fs.readDir dir with
  | none => rfl
  | some entries => exact congrArg publishOps (found_walkLoop fs entries _).childDirs

/-- **Counting agrees with printing.**  Whatever has been walked before, `walk_one` raises the
number of matches and their total size by the same amounts with and without `--count`, and performs
the same operations on the pool: the same subdirectories are announced and pushed in the same order.
Printing appends one record for each match counted, and counting appends nothing. -/
theorem count_eq_print (fs : FileSystem) (filter : FilterConfig) (sumSize longFormat : Bool)
    (dir : PathBuf) (st st' : WorkerState) :
    let count := walkOne fs filter ⟨true, sumSize, longFormat⟩ dir st
    let print := walkOne fs filter ⟨false, sumSize, longFormat⟩ dir st'
    let ms := matchesIn fs filter ⟨false, sumSize, longFormat⟩ dir
    (count.state.localCount = st.localCount + ms.length ∧
      print.state.localCount = st'.localCount + ms.length) ∧
    (∃ size, count.state.localSize = st.localSize + size ∧
      print.state.localSize = st'.localSize + size) ∧
    count.ops = print.ops ∧
    (count.written = [] ∧ count.state.out = st.out) ∧
    print.written.flatten ++ print.state.out =
      st'.out ++ ms.flatMap (Match.record ⟨false, sumSize, longFormat⟩) := by
  intro count print ms
  have hc := walkOne_state fs filter ⟨true, sumSize, longFormat⟩ dir st
  have hp := walkOne_state fs filter ⟨false, sumSize, longFormat⟩ dir st'
  refine ⟨⟨hc.count, hp.count⟩, ⟨_, hc.size, hp.size⟩, ?_, ⟨hc.silent rfl, hc.out_eq rfl⟩, hp.out⟩
  rw [walkOne_ops, walkOne_ops]

end Pfind
