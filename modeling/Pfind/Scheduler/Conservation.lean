import Pfind.Queue.Quiescence
import Pfind.Scheduler.Transition

/-!
# Nothing is walked twice, nothing is left out

Give every call of `read_dir` and every entry of a directory a value in some commutative monoid
(`Valuation`).  The value of what a run has done so far, plus the value of what it has still to
do, is then the same in every state: the value of the whole tree (`conservation`).

The directories still to be walked are those in the deques, in the hands of a worker before its
`read_dir`, and found or announced but not yet pushed; a worker inside a directory has moreover
the rest of its entries to do.  When all threads have ended nothing is left (`worth_finished`);
so every entry of the tree has been processed exactly once (`pick_perm`).
-/

namespace Pfind

open Fs

namespace Scheduler

open Function

variable {n : ℕ} {M : Type*} [AddCommMonoid M]

/-- The tree that the search walks: the subdirectories that are not skipped. -/
def Search.tree (S : Search) : Unfolding PathBuf where
  children dir := (S.fs.listing dir).filterMap (S.childOf dir)
  height := S.fs.height
  height_lt {dir child} h := by
    obtain ⟨e, he, hc⟩ := List.mem_filterMap.1 h
    cases e with
    | none => cases hc
    | some e =>
      simp only [childOf, Pfind.childOf, Option.bind_some, Option.ite_none_right_eq_some,
        Option.some.injEq] at hc
      obtain ⟨⟨hd, -⟩, rfl⟩ := hc
      exact S.fs.height_lt_of_mem he hd

/-- A value for each call of `read_dir` and for each entry. -/
structure Valuation (M : Type*) where
  /-- The value of reading a directory. -/
  dir : PathBuf → M
  /-- The value of processing an entry of a directory. -/
  entry : PathBuf → Option DirEntry → M

/-- The value of a step. -/
def Label.value (V : Valuation M) : Label n → M
  | .opened _ dir | .unreadable _ dir => V.dir dir
  | .entry _ dir e _ => V.entry dir e
  | _ => 0

/-- The directories that a worker in `worker_loop` is going to read or to push. -/
def toWalk : Queue.Pc PathBuf → List PathBuf
  | .found dir | .walk dir => [dir]
  | .addDirs _ cs | .push _ _ cs => cs
  | _ => []

theorem toWalk_publish (dir : PathBuf) (cs : List PathBuf) : toWalk (.publish dir cs) = cs := by
  cases cs <;> rfl

section Worth

variable (V : Valuation M) (S : Search)

/-- The value of the whole tree from `dir` downwards. -/
def worth (dir : PathBuf) : M :=
  S.tree.sum (fun d => V.dir d + ((S.fs.listing d).map (V.entry d)).sum) dir

/-- The value of several trees. -/
def worths (dirs : List PathBuf) : M := (dirs.map (worth V S)).sum

/-- The value of some entries of `dir` and of the trees below them. -/
def worthRest (dir : PathBuf) (es : List (Option DirEntry)) : M :=
  (es.map fun e => V.entry dir e + worths V S (S.childOf dir e).toList).sum

/-- The value of what a worker has in hand. -/
def worthTask (p : Queue.Pc PathBuf) (w : WorkerState) : Task → M
  | .loop => worths V S (toWalk p)
  | .listing dir rest | .flush dir rest => worthRest V S dir rest + worths V S w.childDirs
  | _ => 0

/-- The value of what is still to be done. -/
def State.worth (s : State n) : M :=
  (s.sys.pool.queued.map (Scheduler.worth V S)).sum +
    ∑ i, worthTask V S (s.sys.pc i) (s.ws i) (s.task i)

end Worth

variable {V : Valuation M} {S : Search}

theorem worths_nil : worths V S [] = 0 := rfl

theorem worths_append (ds ds' : List PathBuf) :
    worths V S (ds ++ ds') = worths V S ds + worths V S ds' := by
  simp [worths]

theorem worth_eq (dir : PathBuf) :
    worth V S dir = V.dir dir + worthRest V S dir (S.fs.listing dir) := by
  rw [worth, Unfolding.sum_eq, add_assoc]
  congr 1
  show _ + worths V S ((S.fs.listing dir).filterMap (S.childOf dir)) = _
  induction S.fs.listing dir with
  | nil => simp [worths, worthRest]
  | cons e es ih =>
    have hrest : worthRest V S dir (e :: es) =
        V.entry dir e + worths V S (S.childOf dir e).toList + worthRest V S dir es := by
      simp [worthRest]
    have hcons : (e :: es).filterMap (S.childOf dir) =
        (S.childOf dir e).toList ++ es.filterMap (S.childOf dir) := by
      cases hc : S.childOf dir e <;> simp [hc]
    rw [hrest, hcons, worths_append, ← ih, List.map_cons, List.sum_cons]
    ac_rfl

theorem toWalk_transition {i : Fin n} {r : Queue.Reading} {m m' : Queue.Pool n PathBuf}
    {p p' : Queue.Pc PathBuf} {e : Queue.Event PathBuf} (h : Queue.Transition i r m p e m' p')
    (hp : ∀ dir, p ≠ .walk dir) :
    m'.queued + (toWalk p' : Multiset PathBuf) = m.queued + (toWalk p : Multiset PathBuf) := by
  have hq := h.queued
  have hw : (toWalk p' : Multiset PathBuf) + e.pushes = toWalk p + e.takes := by
    cases h with
    | @walk t => exact absurd rfl (hp t)
    | push =>
      simp only [toWalk, Queue.Event.pushes, Queue.Event.takes, add_zero]
      rw [add_comm, Multiset.singleton_add, Multiset.cons_coe]
    | _ => simp [toWalk, Queue.Event.pushes, Queue.Event.takes]
  refine add_right_cancel (b := e.takes + e.pushes) ?_
  calc m'.queued + (toWalk p' : Multiset PathBuf) + (e.takes + e.pushes)
      = (m'.queued + e.takes) + ((toWalk p' : Multiset PathBuf) + e.pushes) := by ac_rfl
    _ = (m.queued + e.pushes) + (toWalk p + e.takes) := by rw [hq, hw]
    _ = m.queued + (toWalk p : Multiset PathBuf) + (e.takes + e.pushes) := by ac_rfl

theorem sum_map_worth (m : Multiset PathBuf) (ds : List PathBuf) :
    (m.map (worth V S)).sum + worths V S ds = ((m + ds).map (worth V S)).sum := by
  simp [worths]

/-- **What a step does is no longer to be done**, and nothing else has changed. -/
theorem Move.worth {i : Fin n} {s s' : State n} {l : Label n} (h : Move S i s l s') :
    l.value V + s'.worth V S = s.worth V S := by
  obtain ⟨rest, h1, h2⟩ := h.exists_sum_eq (worthTask V S)
  unfold State.worth
  rw [h1, h2]
  -- the deques and worker `i` remain
  suffices hi : l.value V + (((s'.sys.pool.queued.map (Scheduler.worth V S)).sum) +
      worthTask V S (s'.sys.pc i) (s'.ws i) (s'.task i)) =
      (s.sys.pool.queued.map (Scheduler.worth V S)).sum +
        worthTask V S (s.sys.pc i) (s.ws i) (s.task i) by
    rw [← add_assoc, ← add_assoc, ← add_assoc, ← hi, add_assoc (l.value V)]
  cases h with
  | pool ht hw hop =>
    obtain ⟨m', p', htr, rfl⟩ := Queue.State.transition_of_op hop
    simp only [Label.value, zero_add, ht, worthTask, Queue.State.set_pc_self,
      Queue.State.set_pool, sum_map_worth]
    rw [toWalk_transition htr hw]
  | @unreadable dir ht hpc hrd =>
    have hl : S.fs.listing dir = [] := by simp [FileSystem.listing, hrd]
    have hw : worths V S (toWalk (.walk dir)) = V.dir dir := by
      simp [worths, toWalk, worth_eq, hl, worthRest]
    simp only [Label.value, ht, hpc, worthTask, Queue.State.publish, Queue.State.set_pc_self,
      Queue.State.set_pool, toWalk_publish, hw, worths_nil, add_zero]
    exact add_comm _ _
  | @opened dir entries ht hpc hrd =>
    have hl : S.fs.listing dir = entries := by simp [FileSystem.listing, hrd]
    have hw : worths V S (toWalk (.walk dir)) = V.dir dir + worthRest V S dir entries := by
      simp [worths, toWalk, worth_eq, hl]
    simp only [Label.value, ht, hpc, worthTask, State.setWorker_sys, State.setWorker_task,
      State.setWorker_ws, update_self, hw, worths_nil, add_zero]
    exact add_left_comm _ _ _
  | @entry dir e es t ht hor =>
    have ht' : worthTask V S (s.sys.pc i) (S.process dir e (s.ws i)) t =
        worthRest V S dir es + worths V S (s.ws i).childDirs +
          worths V S (S.childOf dir e).toList := by
      rw [add_assoc, ← worths_append]
      rcases hor with rfl | ⟨rfl, -⟩ <;> rfl
    simp only [State.setWorker_sys, State.setWorker_task, State.setWorker_ws, update_self, ht']
    simp only [Label.value, ht, worthTask, worthRest, List.map_cons, List.sum_cons]
    ac_rfl
  | @listed dir ht =>
    simp [Label.value, ht, worthTask, Queue.State.publish, toWalk_publish, worthRest]
  | flush ht => simp [Label.value, ht, worthTask]
  | finalFlush ht hpc => simp [Label.value, ht, hpc, worthTask, toWalk, worths]
  | addMatched ht => simp [Label.value, ht, worthTask]
  | addSize ht => simp [Label.value, ht, worthTask]
  | fail => simp [Label.value]

variable [NeZero n]

theorem worth_init (V : Valuation M) (S : Search) :
    (State.init S : State n).worth V S = worth V S S.root := by
  have hq : (Queue.State.init S.seeds : Queue.State n PathBuf).pool.queued = {S.root} := by
    simp only [Queue.State.init, Queue.Pool.seeded, Queue.Pool.queued, Deque.total, Deque.bag,
      Search.seeds]
    rw [Finset.sum_eq_single 0] <;> simp +contextual
  rw [State.worth, init_sys, hq]
  simp [Queue.State.init, State.init, worthTask, toWalk, worths]

/-- **The value of what a run has done and of what it has still to do is that of the tree.** -/
theorem conservation (V : Valuation M) {s : State n} {ls : List (Label n)}
    (h : (lts S).Run (.init S) ls s) :
    (ls.map (Label.value V)).sum + s.worth V S = worth V S S.root := by
  refine history (P := fun ls s => (ls.map (Label.value V)).sum + s.worth V S = _) h ?_ ?_
  · rw [List.map_nil, List.sum_nil, zero_add, worth_init]
  · intro ls s i l s' _ ih hm
    rw [List.map_append, List.sum_append, List.map_singleton, List.sum_singleton, add_assoc,
      hm.worth, ih]

theorem worth_finished (V : Valuation M) {s : State n} (h : (lts S).Reachable (.init S) s)
    (hf : ∀ i, s.task i = .finished) : s.worth V S = 0 := by
  obtain ⟨hr, hs⟩ := sys_reachable h
  have hret : s.sys.pc 0 = .returned := by
    have h0 := hs 0
    rw [hf 0] at h0
    exact h0
  have hz := Queue.dirPending_of_quitting hr (Or.inr ⟨0, by rw [hret]; trivial⟩)
  have hq := ((Queue.counter_exact hr).of_zero hz).1
  simp [State.worth, hq, hf, worthTask]

/-! ### Entries collected

What a function makes of the entries, as a valuation in multisets. -/

section Collect

variable {α : Type*} (f : PathBuf → Option DirEntry → Option α)

/-- What `f` makes of an entry is the value of the entry. -/
def Valuation.collect : Valuation (Multiset α) where
  dir _ := 0
  entry dir e := (f dir e).toList

/-- What `f` makes of the entry processed in a step. -/
def Label.pick : Label n → Option α
  | .entry _ dir e _ => f dir e
  | _ => none

/-- What `f` makes of all entries of the tree from `dir` downwards. -/
def Search.collect (S : Search) (dir : PathBuf) : List α :=
  (S.tree.preorder dir).flatMap fun d => (S.fs.listing d).filterMap (f d)

omit [NeZero n] in
theorem coe_filterMap {β : Type*} (g : β → Option α) (bs : List β) :
    (bs.map fun b => ((g b).toList : Multiset α)).sum = (bs.filterMap g : Multiset α) := by
  induction bs with
  | nil => rfl
  | cons b bs ih =>
    rw [List.map_cons, List.sum_cons, ih, List.filterMap_cons]
    cases g b <;> simp

omit [NeZero n] in
theorem worth_collect (S : Search) (dir : PathBuf) :
    worth (.collect f) S dir = (S.collect f dir : Multiset α) := by
  unfold worth Search.collect Unfolding.sum
  induction S.tree.preorder dir with
  | nil => rfl
  | cons d ds ih =>
    rw [List.map_cons, List.sum_cons, ih, List.flatMap_cons, ← Multiset.coe_add, ← coe_filterMap]
    rw [show (Valuation.collect f).dir d = 0 from rfl, zero_add]
    rfl

omit [NeZero n] in
theorem sum_value_collect (ls : List (Label n)) :
    (ls.map (Label.value (.collect f))).sum = (ls.filterMap (Label.pick f) : Multiset α) := by
  rw [← coe_filterMap]
  refine congrArg List.sum (List.map_congr_left fun l _ => ?_)
  cases l <;> rfl

/-- A run processes entries of the tree only, and none of them twice. -/
theorem pick_subperm {s : State n} {ls : List (Label n)} (h : (lts S).Run (.init S) ls s) :
    (ls.filterMap (Label.pick f)).Subperm (S.collect f S.root) := by
  rw [← Multiset.coe_le, ← sum_value_collect, ← worth_collect, ← conservation (.collect f) h]
  exact Multiset.le_add_right _ _

/-- **A run in which all threads have ended has processed every entry of the tree exactly
once.** -/
theorem pick_perm {s : State n} {ls : List (Label n)} (h : (lts S).Run (.init S) ls s)
    (hf : ∀ i, s.task i = .finished) : (ls.filterMap (Label.pick f)).Perm (S.collect f S.root) := by
  rw [← Multiset.coe_eq_coe, ← sum_value_collect, ← worth_collect, ← conservation (.collect f) h,
    worth_finished _ h.reachable hf, add_zero]

end Collect

end Scheduler

end Pfind
