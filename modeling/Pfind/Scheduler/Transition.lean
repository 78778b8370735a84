import Pfind.Queue.Transition
import Pfind.Scheduler.Basic
import Pfind.Walker.Match

/-!
# What a step of the run can do

`Move` lists the steps of one worker, with what becomes of an entry said by `matchOf` and
`childOf`; `Step.cases` says that there are no others, and `history` is the invariant rule.

* `simulation` : **the pool and the program points go through steps of the system of
  `Queue.Basic`**, in which the walk of a directory may publish any children; so whatever holds
  of that system for every walk holds of the run.
* `Task.At`, `sys_reachable` : where in `worker_loop` a worker is that is busy elsewhere.
-/

namespace Pfind

open Fs

namespace Scheduler

open Function

variable {n : ℕ}

/-! ### What becomes of an entry -/

namespace Search

variable (S : Search)

/-- The match that an entry of `dir` is. -/
def matchOf (dir : PathBuf) (e : Option DirEntry) : Option Match :=
  Pfind.matchOf S.fs S.filter S.output dir e

/-- The subdirectory to be walked that an entry of `dir` is. -/
def childOf (dir : PathBuf) (e : Option DirEntry) : Option PathBuf := Pfind.childOf S.filter dir e

/-- The bytes appended for a match. -/
def printed (m : Match) : Bytes := Pfind.printed S.output m

/-- The scratch state behind an entry of `dir`. -/
def process (dir : PathBuf) (e : Option DirEntry) (w : WorkerState) : WorkerState where
  out := w.out ++ (S.matchOf dir e).elim [] S.printed
  localCount := w.localCount + (S.matchOf dir e).toList.length
  localSize := w.localSize + (S.matchOf dir e).elim 0 Match.known
  childDirs := w.childDirs ++ (S.childOf dir e).toList

variable {S}

theorem walkEntry_fst (dir : PathBuf) (e : Option DirEntry) (w : WorkerState) :
    (walkEntry S.fs S.filter S.output dir e w).1 = S.process dir e w := by
  rw [walkEntry_eq]
  unfold process matchOf childOf
  cases Pfind.matchOf S.fs S.filter S.output dir e <;>
    simp [WorkerState.addMatch, WorkerState.add, printed]

theorem walkEntry_snd {dir : PathBuf} {e : Option DirEntry} {w : WorkerState}
    (h : (walkEntry S.fs S.filter S.output dir e w).2 = false) :
    (S.process dir e w).out = w.out ∨ (S.process dir e w).out.length < outFlushBytes := by
  rw [walkEntry_eq] at h
  unfold process matchOf
  cases hm : Pfind.matchOf S.fs S.filter S.output dir e with
  | none => simp
  | some m =>
    simp only [hm, WorkerState.addMatch, Bool.and_eq_false_iff, decide_eq_false_iff_not] at h
    rcases h with h | h
    · exact Or.inl (by simp [printed, Pfind.printed, h])
    · exact Or.inr (by simpa [WorkerState.add, printed] using h)

end Search

/-! ### Moves -/

/-- The steps of worker `i` from state `s`. -/
inductive Move (S : Search) (i : Fin n) (s : State n) : Label n → State n → Prop
  | pool {e : Queue.Event PathBuf} {sys : Queue.State n PathBuf} :
      s.task i = .loop → (∀ dir, s.sys.pc i ≠ .walk dir) →
      s.sys.op i s.sys.pool.reading = some (e, sys) → Move S i s (.pool i e) { s with sys := sys }
  | unreadable {dir : PathBuf} :
      s.task i = .loop → s.sys.pc i = .walk dir → S.fs.readDir dir = none →
      Move S i s (.unreadable i dir) { s with sys := s.sys.publish i dir [] }
  | opened {dir : PathBuf} {entries : List (Option DirEntry)} :
      s.task i = .loop → s.sys.pc i = .walk dir → S.fs.readDir dir = some entries →
      Move S i s (.opened i dir)
        (s.setWorker i (.listing dir entries) { s.ws i with childDirs := [] })
  | entry {dir : PathBuf} {e : Option DirEntry} {rest : List (Option DirEntry)} {t : Task} :
      s.task i = .listing dir (e :: rest) →
      t = .flush dir rest ∨ t = .listing dir rest ∧
        ((S.process dir e (s.ws i)).out = (s.ws i).out ∨
          (S.process dir e (s.ws i)).out.length < outFlushBytes) →
      Move S i s (.entry i dir e ((S.matchOf dir e).elim [] S.printed))
        (s.setWorker i t (S.process dir e (s.ws i)))
  | listed {dir : PathBuf} :
      s.task i = .listing dir [] →
      Move S i s (.listed i) { s.setWorker i .loop { s.ws i with childDirs := [] } with
        sys := s.sys.publish i dir (s.ws i).childDirs }
  | flush {dir : PathBuf} {rest : List (Option DirEntry)} :
      s.task i = .flush dir rest → Move S i s (.flushed i) (s.flushOut i (.listing dir rest))
  | finalFlush : s.task i = .loop → s.sys.pc i = .returned →
      Move S i s (.flushed i) (s.flushOut i .addMatched)
  | addMatched : s.task i = .addMatched → Move S i s (.added i) (s.addMatched i)
  | addSize : s.task i = .addSize → Move S i s (.added i) (s.addSize i)
  | fail {pre : Bytes} {code : ℕ} : s.Writing i → pre <+: (s.ws i).out →
      Move S i s (.failed i) { s with stdout := s.stdout ++ [(i, pre)], exit := some code }

/-- **The moves are all there is**, and there is none once the process has exited. -/
theorem Step.cases {S : Search} {s s' : State n} {l : Label n} (h : Step S s l s') :
    s.exit = none ∧ ∃ i, Move S i s l s' := by
  cases h with
  | fail _ hx hw hp => exact ⟨hx, _, .fail hw hp⟩
  | @next _ i _ h =>
    unfold State.next at h
    split_ifs at h with hx
    refine ⟨by simpa using hx, i, ?_⟩
    split at h
    · rename_i ht
      split at h
      · rename_i dir hpc
        split at h <;> cases h
        · exact .unreadable ht hpc ‹_›
        · exact .opened ht hpc ‹_›
      · rename_i hpc
        cases h
        exact .finalFlush ht hpc
      · rename_i hw _
        simp only [Option.map_eq_some_iff, Prod.mk.injEq] at h
        obtain ⟨⟨e, sys⟩, hop, rfl, rfl⟩ := h
        exact .pool ht hw hop
    · rename_i dir e rest ht
      cases h
      have hrec : (walkEntry S.fs S.filter S.output dir e (s.ws i)).1.out.drop
          (s.ws i).out.length = (S.matchOf dir e).elim [] S.printed := by
        simp [Search.walkEntry_fst, Search.process]
      rw [hrec, Search.walkEntry_fst]
      refine .entry ht ?_
      cases hd : (walkEntry S.fs S.filter S.output dir e (s.ws i)).2 with
      | true => exact Or.inl rfl
      | false => exact Or.inr ⟨rfl, Search.walkEntry_snd hd⟩
    · rename_i dir ht
      cases h
      exact .listed ht
    · rename_i dir rest ht
      cases h
      exact .flush ht
    · cases h; exact .addMatched ‹_›
    · cases h; exact .addSize ‹_›
    · cases h

/-- **Invariant rule with history** for the run: every step is a move. -/
theorem history {S : Search} {P : List (Label n) → State n → Prop} {s₀ s : State n}
    {ls : List (Label n)} (h : (lts S).Run s₀ ls s) (h₀ : P [] s₀)
    (hmove : ∀ ls s i l s', s.exit = none → P ls s → Move S i s l s' → P (ls ++ [l]) s') :
    P ls s := by
  refine h.history h₀ ?_
  intro ls s l s' _ hp hst
  obtain ⟨hx, i, hm⟩ := Step.cases hst
  exact hmove ls s i l s' hx hp hm

/-! ### Where a busy worker is -/

/-- The program point of a worker with this task. -/
def Task.At (p : Queue.Pc PathBuf) : Task → Prop
  | .loop => True
  | .listing dir _ | .flush dir _ => p = .walk dir
  | .addMatched | .addSize | .finished => p = .returned

/-- Every worker is where its task says. -/
def State.Placed (s : State n) : Prop := ∀ i, (s.task i).At (s.sys.pc i)

section Fields

variable (s : State n) (i : Fin n) (t : Task) (w : WorkerState)

@[simp] theorem State.setWorker_sys : (s.setWorker i t w).sys = s.sys := rfl

@[simp] theorem State.setWorker_task : (s.setWorker i t w).task = update s.task i t := rfl

@[simp] theorem State.setWorker_ws : (s.setWorker i t w).ws = update s.ws i w := rfl

@[simp] theorem State.setWorker_stdout : (s.setWorker i t w).stdout = s.stdout := rfl

@[simp] theorem State.setWorker_matched : (s.setWorker i t w).matched = s.matched := rfl

@[simp] theorem State.setWorker_totalSize : (s.setWorker i t w).totalSize = s.totalSize := rfl

@[simp] theorem State.setWorker_exit : (s.setWorker i t w).exit = s.exit := rfl

@[simp] theorem State.flushOut_eq : s.flushOut i t =
    { s.setWorker i t { s.ws i with out := [] } with
      stdout := s.stdout ++ if (s.ws i).out.isEmpty then [] else [(i, (s.ws i).out)] } := by
  unfold flushOut
  dsimp only
  split_ifs with h
  · rw [← List.isEmpty_iff.1 h, List.append_nil]; rfl
  · rfl

@[simp] theorem State.addMatched_eq : s.addMatched i =
    { s.setWorker i .addSize { s.ws i with localCount := 0 } with
      matched := s.matched + (s.ws i).localCount } := by
  unfold addMatched
  split_ifs with h
  · rfl
  · have hz := Nat.eq_zero_of_not_pos h
    have hw : { s.ws i with localCount := 0 } = s.ws i := by rw [← hz]
    rw [hw, hz]; rfl

@[simp] theorem State.addSize_eq : s.addSize i =
    { s.setWorker i .finished { s.ws i with localSize := 0 } with
      totalSize := s.totalSize + (s.ws i).localSize } := by
  unfold addSize
  split_ifs with h
  · rfl
  · have hz := UInt64.le_zero_iff.1 (UInt64.not_lt.1 h)
    have hw : { s.ws i with localSize := 0 } = s.ws i := by rw [← hz]
    rw [hw, hz, UInt64.add_zero]; rfl

end Fields

variable {S : Search} {i : Fin n} {s s' : State n} {l : Label n}

theorem State.Placed.update (hs : s.Placed) {t : Task} (ht : t.At (s.sys.pc i)) (j : Fin n) :
    (Function.update s.task i t j).At (s.sys.pc j) := by
  by_cases hj : j = i
  · subst hj; rwa [update_self]
  · rw [update_of_ne hj]; exact hs j

theorem State.Placed.set (hs : s.Placed) {t : Fin n → Task} (ht : t i = .loop)
    (hne : ∀ j, j ≠ i → t j = s.task j) (m : Queue.Pool n PathBuf) (p : Queue.Pc PathBuf)
    (j : Fin n) : (t j).At ((s.sys.set i m p).pc j) := by
  by_cases hj : j = i
  · subst hj; rw [ht]; trivial
  · rw [hne j hj, Queue.State.set_pc_of_ne _ _ _ hj]; exact hs j

theorem Move.placed (h : Move S i s l s') (hs : s.Placed) : s'.Placed := by
  cases h with
  | pool ht _ hop =>
    obtain ⟨m', p', -, rfl⟩ := Queue.State.transition_of_op hop
    exact hs.set ht (fun _ _ => rfl) m' p'
  | unreadable ht => exact hs.set ht (fun _ _ => rfl) _ _
  | opened _ hpc => exact hs.update hpc
  | entry ht hor =>
    have hat := hs i
    rw [ht] at hat
    rcases hor with rfl | ⟨rfl, -⟩ <;> exact hs.update hat
  | listed => exact hs.set (update_self ..) (fun _ hj => update_of_ne hj ..) _ _
  | flush ht =>
    have hat := hs i
    rw [ht] at hat
    rw [State.flushOut_eq]
    exact hs.update (t := .listing _ _) hat
  | finalFlush _ hpc =>
    rw [State.flushOut_eq]
    exact hs.update (t := .addMatched) hpc
  | addMatched ht =>
    have hat := hs i
    rw [ht] at hat
    rw [State.addMatched_eq]
    exact hs.update (t := .addSize) hat
  | addSize ht =>
    have hat := hs i
    rw [ht] at hat
    rw [State.addSize_eq]
    exact hs.update (t := .finished) hat
  | fail => exact hs

theorem Move.frame (h : Move S i s l s') {j : Fin n} (hj : j ≠ i) :
    s'.task j = s.task j ∧ s'.sys.pc j = s.sys.pc j ∧ s'.ws j = s.ws j := by
  cases h with
  | pool _ _ hop =>
    obtain ⟨m', p', -, rfl⟩ := Queue.State.transition_of_op hop
    exact ⟨rfl, Queue.State.set_pc_of_ne _ _ _ hj, rfl⟩
  | unreadable => exact ⟨rfl, Queue.State.set_pc_of_ne _ _ _ hj, rfl⟩
  | listed =>
    exact ⟨update_of_ne hj .., Queue.State.set_pc_of_ne _ _ _ hj, update_of_ne hj ..⟩
  | _ => simp [hj]

theorem Move.exists_sum_eq {A : Type*} [AddCommMonoid A]
    (f : Queue.Pc PathBuf → WorkerState → Task → A) (h : Move S i s l s') :
    ∃ rest, ∑ j, f (s'.sys.pc j) (s'.ws j) (s'.task j) =
        f (s'.sys.pc i) (s'.ws i) (s'.task i) + rest ∧
      ∑ j, f (s.sys.pc j) (s.ws j) (s.task j) = f (s.sys.pc i) (s.ws i) (s.task i) + rest := by
  refine Threads.exists_sum_eq fun j hj => ?_
  obtain ⟨ht, hpc, hw⟩ := h.frame hj
  rw [ht, hpc, hw]

/-! ### The run as a run of the pool -/

/-- **The pool and the program points of the run go through steps of the system of workers.** -/
theorem simulation (S : Search) : LTS.Simulation (lts (n := n) S)
    (Queue.lts .any .sc) fun s t => t = s.sys ∧ s.Placed where
  step := by
    rintro s _ l s' ⟨rfl, hs⟩ hst
    obtain ⟨-, i, hm⟩ := hst.cases
    have hs' := hm.placed hs
    cases hm with
    | pool _ _ hop => exact Or.inr ⟨_, _, .op rfl hop, rfl, hs'⟩
    | unreadable _ hpc => exact Or.inr ⟨_, _, .walk hpc trivial, rfl, hs'⟩
    | listed ht =>
      have hat := hs i
      rw [ht] at hat
      exact Or.inr ⟨_, _, .walk hat trivial, rfl, hs'⟩
    | flush | finalFlush | addMatched | addSize => exact Or.inl ⟨by simp, hs'⟩
    | _ => exact Or.inl ⟨rfl, hs'⟩

/-- The root, seeded on the deque of worker 0. -/
def Search.seeds [NeZero n] (S : Search) (i : Fin n) : List PathBuf :=
  if i = 0 then [S.root] else []

theorem init_sys [NeZero n] (S : Search) : (State.init S : State n).sys = .init S.seeds := by
  have hd : (Queue.Pool.new.push 0 S.root : Queue.Pool n PathBuf).deque =
      fun i => ⟨S.seeds i⟩ := by
    funext i
    by_cases hi : i = 0
    · subst hi
      simp [Queue.Pool.push, Queue.Pool.setDeque, Queue.Pool.new, Search.seeds, Deque.push,
        Deque.empty]
    · simp [Queue.Pool.push, Queue.Pool.setDeque, Queue.Pool.new, Search.seeds, hi, Deque.empty]
  have hsum : ∑ i : Fin n, (S.seeds i).length = 1 := by
    simp [Search.seeds, apply_ite List.length, Finset.sum_ite_eq']
  simp only [State.init, Queue.State.init, Queue.Pool.seeded, hsum, ← hd]
  rfl

theorem placed_init [NeZero n] (S : Search) : (State.init S : State n).Placed := fun _ => trivial

theorem sys_reachable [NeZero n] (h : (lts S).Reachable (.init S) s) :
    (Queue.lts .any .sc).Reachable (.init S.seeds) s.sys ∧ s.Placed := by
  obtain ⟨_, hr, rfl, hs⟩ := (simulation S).reachable h ⟨rfl, placed_init S⟩
  rw [init_sys] at hr
  exact ⟨hr, hs⟩

end Scheduler

end Pfind
