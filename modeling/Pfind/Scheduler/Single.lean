import Pfind.Queue.Deadlock
import Pfind.Scheduler.Worklist
import Pfind.Scheduler.Written

/-!
# One worker

With `-j 1` nobody steals, and the deque of the only worker is a stack.

* `stack_refinement` : **the calls of `read_dir` are the steps of `Unfolding.stack`**, so they
  come in an order that depends on the tree alone.
* `single_worker_output` : **what is printed is a prefix of one text**, which depends on the tree,
  the filter and the output options alone, and all of it in the end.
-/

namespace Pfind

open Fs

namespace Queue

variable {n : ℕ} {T : Type*}

/-- A sweep starts behind the worker itself. -/
def Pc.SweepsPeers : Pc T → Prop
  | .steal k | .recheck k => 0 < k
  | _ => True

variable {i : Fin n} {r : Reading} {m m' : Pool n T} {p p' : Pc T} {e : Event T}

theorem sweepsPeers_publish (t : T) (cs : List T) : (Pc.publish t cs).SweepsPeers := by
  cases cs <;> trivial

theorem Transition.sweepsPeers (h : Transition i r m p e m' p') (hp : p.SweepsPeers) :
    p'.SweepsPeers := by
  cases h with
  | popNone | announce => exact Nat.one_pos
  | stealNone | recheckNone => exact Nat.succ_pos _
  | walk => exact sweepsPeers_publish _ _
  | _ => trivial

theorem sweepsPeers_of_reachable {W : Walk T} {M : Memory n T} {seeds : Fin n → List T}
    {s : State n T} (h : (lts W M).Reachable (.init seeds) s) (i : Fin n) :
    (s.pc i).SweepsPeers := by
  refine h.invariant (I := fun s => ∀ i, (s.pc i).SweepsPeers) (fun _ => trivial) ?_ i
  intro s e s' _ ih hst j
  obtain ⟨i, r, m', p', ht, rfl, -⟩ := hst.cases
  by_cases hj : j = i
  · subst hj
    rw [State.set_pc_self]
    exact ht.sweepsPeers (ih j)
  · rw [State.set_pc_of_ne _ _ _ hj]
    exact ih j

end Queue

namespace Scheduler

open Function

theorem toWalk_single {r : Queue.Reading} {m m' : Queue.Pool 1 PathBuf}
    {p p' : Queue.Pc PathBuf} {e : Queue.Event PathBuf} (h : Queue.Transition 0 r m p e m' p')
    (hp : ∀ dir, p ≠ .walk dir) (hk : p.SweepsPeers) :
    (m'.deque 0).items ++ toWalk p' = (m.deque 0).items ++ toWalk p := by
  cases h with
  | @walk t => exact absurd rfl (hp t)
  | popSome hd =>
    rw [Deque.eq_push_of_pop hd]
    simp [toWalk, Queue.Pool.setDeque, Deque.push]
  -- a single worker has no peer to steal from
  | stealSome hlt | recheckSome hlt => exact absurd hlt (Nat.not_lt.2 hk)
  | push => simp [toWalk, Queue.Pool.push, Queue.Pool.setDeque, Deque.push]
  | _ => rfl

/-- The directories found and not yet read by the only worker, the next one first. -/
def State.pendingStack (S : Search) (s : State 1) : List PathBuf :=
  ((s.sys.pool.deque 0).items ++ dirsInHand S (s.sys.pc 0) (s.ws 0) (s.task 0)).reverse

/-- The order in which a single worker finds the matches: the directories depth first, the last
subdirectory of each before the others, and the entries of a directory as they are listed. -/
def Search.depthFirst (S : Search) : List Match :=
  (S.tree.reverse.preorder S.root).flatMap S.matchesIn

/-- The matches that a worker has still to come across in the directory it is in. -/
def Search.upcoming (S : Search) : Task → List Match
  | .listing dir rest | .flush dir rest => rest.filterMap (S.matchOf dir)
  | _ => []

variable {S : Search} {s s' : State 1} {l : Label 1} {ls : List (Label 1)}

theorem Move.pendingStack (h : Move S 0 s l s') (hk : (s.sys.pc 0).SweepsPeers) :
    (S.tree.stack).Moves (s.pendingStack S) l.read (s'.pendingStack S) := by
  cases h with
  | pool ht hw hop =>
    obtain ⟨m', p', htr, rfl⟩ := Queue.State.transition_of_op hop
    show _ = _
    unfold State.pendingStack
    simp only [ht, dirsInHand, Queue.State.set_pc_self, Queue.State.set_pool,
      toWalk_single htr hw hk]
  | @unreadable dir ht hpc hrd =>
    refine ⟨(s.sys.pool.deque 0).items.reverse, ?_, ?_⟩
    · simp [State.pendingStack, ht, hpc, dirsInHand, toWalk]
    · simp [State.pendingStack, ht, dirsInHand, Queue.State.publish, toWalk_publish,
        children_unreadable hrd]
  | @opened dir entries ht hpc hrd =>
    refine ⟨(s.sys.pool.deque 0).items.reverse, ?_, ?_⟩
    · simp [State.pendingStack, ht, hpc, dirsInHand, toWalk]
    · simp only [State.pendingStack, State.setWorker_sys, State.setWorker_task,
        State.setWorker_ws, update_self, dirsInHand_opened hrd, List.reverse_append]
  | @entry dir e es t ht hor =>
    have ht' : dirsInHand S (s.sys.pc 0) (S.process dir e (s.ws 0)) t =
        dirsInHand S (s.sys.pc 0) (s.ws 0) (s.task 0) := by
      rw [ht, ← dirsInHand_process]
      rcases hor with rfl | ⟨rfl, -⟩ <;> rfl
    show _ = _
    simp only [State.pendingStack, State.setWorker_sys, State.setWorker_task, State.setWorker_ws,
      update_self, ht']
  | finalFlush ht hpc =>
    show _ = _
    simp [State.pendingStack, ht, hpc, dirsInHand, toWalk]
  | fail => rfl
  | listed ht | flush ht | addMatched ht | addSize ht =>
    show _ = _
    simp [State.pendingStack, ht, dirsInHand, Queue.State.publish, toWalk_publish]

/-- **With one worker the calls of `read_dir` are the steps of a traversal with a stack.** -/
theorem stack_refinement (S : Search) : LTS.Refinement (lts (n := 1) S) S.tree.stack
    Label.read (.init S) fun s t => t = s.pendingStack S where
  step := by
    rintro s _ l s' hr rfl hst
    obtain ⟨-, i, hm⟩ := hst.cases
    obtain rfl : i = 0 := Subsingleton.elim _ _
    exact ⟨_, hm.pendingStack (Queue.sweepsPeers_of_reachable (sys_reachable hr).1 0), rfl⟩

theorem reads_stack (h : (lts S).Run (.init S) ls s) :
    reads ls ++ (s.pendingStack S).flatMap S.tree.reverse.preorder =
      S.tree.reverse.preorder S.root := by
  obtain ⟨_, hr, rfl⟩ := (stack_refinement S).run h rfl
  have h₀ : (State.init S : State 1).pendingStack S = [S.root] := by
    rw [State.pendingStack, init_sys]
    simp [Queue.State.init, Queue.Pool.seeded, Search.seeds, State.init, dirsInHand, toWalk]
  rw [h₀] at hr
  have hst := Unfolding.stack_eq hr
  rwa [List.flatMap_singleton] at hst

theorem reads_snoc (ls : List (Label 1)) (l : Label 1) :
    reads (ls ++ [l]) = reads ls ++ l.read.toList := by
  unfold reads
  cases h : l.read <;> simp [h]

theorem hits_snoc (ls : List (Label 1)) (l : Label 1) :
    hits S (ls ++ [l]) = hits S ls ++ (l.pick S.matchOf).toList := by
  unfold hits
  cases h : l.pick S.matchOf <;> simp [h]

theorem Move.upcoming (h : Move S 0 s l s') :
    (l.pick S.matchOf).toList ++ S.upcoming (s'.task 0) =
      S.upcoming (s.task 0) ++ l.read.toList.flatMap S.matchesIn := by
  cases h with
  | @opened dir entries ht hpc hrd =>
    simp [ht, Search.upcoming, Label.pick, Label.read, Search.matchesIn, FileSystem.listing, hrd]
  | @unreadable dir ht hpc hrd =>
    simp [ht, Search.upcoming, Label.pick, Label.read, Search.matchesIn, FileSystem.listing, hrd]
  | @entry dir e es t ht hor =>
    have ht' : S.upcoming t = es.filterMap (S.matchOf dir) := by
      rcases hor with rfl | ⟨rfl, -⟩ <;> rfl
    simp only [State.setWorker_task, update_self, ht, ht', Label.pick, Label.read,
      Option.toList_none, List.flatMap_nil, List.append_nil]
    cases he : S.matchOf dir e <;> simp [Search.upcoming, he]
  | pool | fail => simp [Label.pick, Label.read]
  | listed ht | flush ht | finalFlush ht | addMatched ht | addSize ht =>
    simp [ht, Search.upcoming, Label.pick, Label.read]

theorem hits_reads (h : (lts S).Run (.init S) ls s) :
    hits S ls ++ S.upcoming (s.task 0) = (reads ls).flatMap S.matchesIn := by
  refine history (P := fun ls s => hits S ls ++ S.upcoming (s.task 0) =
    (reads ls).flatMap S.matchesIn) h rfl ?_
  intro ls s i l s' _ ih hm
  obtain rfl : i = 0 := Subsingleton.elim _ _
  rw [hits_snoc, reads_snoc, List.flatMap_append, ← ih, List.append_assoc, hm.upcoming,
    List.append_assoc]

theorem hits_prefix (h : (lts S).Run (.init S) ls s) : hits S ls <+: S.depthFirst := by
  refine ⟨S.upcoming (s.task 0) ++
    ((s.pendingStack S).flatMap S.tree.reverse.preorder).flatMap S.matchesIn, ?_⟩
  -- what comes behind are the rest of the directory read now, and the directories on the stack
  rw [← List.append_assoc, hits_reads h, ← List.flatMap_append, reads_stack h]
  rfl

theorem found_single (ls : List (Label 1)) : found S 0 ls = hits S ls := by
  refine List.filterMap_congr fun l _ => ?_
  cases l with
  | entry i => simp [Label.found, Label.pick, Subsingleton.elim i 0]
  | _ => rfl

theorem written_single (chunks : List (Fin 1 × List Match)) :
    written chunks 0 = chunks.flatMap Prod.snd := by
  unfold written
  rw [List.filter_eq_self.2 fun c _ => by simp [Subsingleton.elim c.1 0]]

theorem depthFirst_of_finished (h : (lts S).Run (.init S) ls s) (hf : s.task 0 = .finished)
    (hx : s.exit = none) : hits S ls = S.depthFirst ∧ s.output = S.records S.depthFirst := by
  have hstack : s.pendingStack S = [] := by
    obtain ⟨hr, hs⟩ := sys_reachable h.reachable
    have hret := hs 0
    rw [hf] at hret
    have hempty := Queue.ownDeque_empty hr (i := 0)
      (by rw [show s.sys.pc 0 = _ from hret]; trivial)
    simp [State.pendingStack, hempty, hf, dirsInHand]
  have hall : hits S ls = S.depthFirst := by
    have hreads := reads_stack h
    have hhits := hits_reads h
    rw [hstack, List.flatMap_nil, List.append_nil] at hreads
    rw [hf, hreads] at hhits
    change hits S ls ++ [] = _ at hhits
    rwa [List.append_nil] at hhits
  refine ⟨hall, ?_⟩
  obtain ⟨chunks, buf, hl⟩ := exists_ledger h hx
  have hbuf : S.records (buf 0) = [] := by
    have hfit := fits h 0
    rw [hf, hl.out] at hfit
    exact hfit
  have hfound := hl.found 0
  rw [found_single, hall, written_single] at hfound
  rw [State.output, hl.stdout, flatMap_writes, ← hfound, Search.records, Search.records,
    List.flatMap_append]
  exact (List.append_right_eq_self.2 hbuf).symm

/-- **With `-j 1` the output is a function of the search.**  Whatever the scheduler does, and
whether or not a write fails, a single worker calls `read_dir` in depth-first order, finds the
matches in the order `Search.depthFirst`, and has written a prefix of their records; when it has
ended it has written all of them. -/
theorem single_worker_output (S : Search) {ls : List (Label 1)} {s : State 1}
    (h : (lts S).Run (.init S) ls s) :
    reads ls <+: S.tree.reverse.preorder S.root ∧ hits S ls <+: S.depthFirst ∧
      s.output <+: S.records S.depthFirst ∧
      (s.task 0 = .finished → s.exit = none →
        hits S ls = S.depthFirst ∧ s.output = S.records S.depthFirst) := by
  refine ⟨⟨_, reads_stack h⟩, hits_prefix h, ?_, depthFirst_of_finished h⟩
  obtain ⟨chunks, buf, last, hstdout, hfound, hlast⟩ := exists_torn h
  have hbuf : S.records (chunks.flatMap Prod.snd) ++ S.records (buf 0) <+:
      S.records S.depthFirst := by
    have hf := hfound 0
    rw [found_single, written_single] at hf
    obtain ⟨ms, hms⟩ := hf ▸ hits_prefix h
    refine ⟨S.records ms, ?_⟩
    simp only [Search.records, ← List.flatMap_append, hms]
  rw [State.output, hstdout, List.flatMap_append, flatMap_writes]
  rcases hlast with rfl | ⟨-, i, pre, rfl, hp⟩
  · exact ((List.prefix_append_right_inj _).2 List.nil_prefix).trans hbuf
  · obtain rfl : i = 0 := Subsingleton.elim _ _
    rw [List.flatMap_singleton]
    exact ((List.prefix_append_right_inj _).2 hp).trans hbuf

/-- One worker prints `r/f` and ends. -/
theorem single_worker_output_small :
    ∃ (ls : List (Label 1)) (s : State 1), (lts small).Run (.init small) ls s ∧
      s.output = [byte 'r', byte '/', byte 'f', byte '\n'] ∧
      s.output = small.records small.depthFirst := by
  obtain ⟨ls, s, -, hr, hs⟩ := LTS.Run.of_exec_map step_of_next
    (show (LTS.exec (State.next small) (List.replicate 26 0) (State.init small)).map
      (fun x : List (Label 1) × State 1 => (x.2.output, x.2.exit, x.2.task 0)) =
        some ([byte 'r', byte '/', byte 'f', byte '\n'], none, .finished) by decide)
  simp only [Prod.mk.injEq] at hs
  exact ⟨ls, s, hr, hs.1, ((single_worker_output small hr).2.2.2 hs.2.2 hs.2.1).2⟩

end Scheduler

end Pfind
