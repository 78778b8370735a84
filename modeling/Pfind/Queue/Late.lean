import Pfind.Queue.StoreBuffer
import Pfind.Queue.Termination

/-!
# What late pushes cannot break

A push that becomes visible late may cost a wake-up (`Buffered.Overlooks`), and with it
parallelism.  It costs nothing else, because neither quiescence nor the shutdown broadcast depends
on wake-ups.

* `late_refinement` : **every step with late pushes is a step of the system of `Queue.Basic`** on
  the deques as their owners see them, in which a steal may overlook anything; a push becoming
  visible is no step.
* `exit_late` : hence nobody leaves early, nothing is lost, nothing is walked twice, and the workers
  never all sleep.
* `completes_late` : **every run comes to an end**, and then all workers have returned, everything
  has been walked and nothing is left in a buffer.
-/

namespace Pfind

namespace Queue

open Function

variable {n : ℕ} {T : Type*}

/-- A memory model without any guarantee. -/
def Memory.any : Memory n T := ⟨fun _ _ _ => True⟩

namespace Buffered

/-- What a step did to an item; a push becoming visible does nothing. -/
def Label.event : Label n T → Option (Event T)
  | .access _ e => some e
  | .walk _ => some .tau
  | .commit _ => none

/-- What the steps of a run did to the items. -/
def events (ls : List (Label n T)) : List (Event T) := ls.filterMap Label.event

variable {W : Walk T} {seeds : Fin n → List T} {s s' : Buffered n T} {i : Fin n} {e : Event T}
  {l : Label n T} {ls : List (Label n T)}

theorem forward_shared_any (hpush : ∀ t k c cs, s.sys.pc i ≠ .push t k (c :: cs))
    (hpop : s.sys.pc i = .pop → s.buffer i = []) (h : s.shared i = some (e, s')) :
    (Queue.lts W .any).step s.forward e s'.forward := by
  simp only [shared, State.op, Option.map_map, Option.map_eq_some_iff, Function.comp,
    Prod.mk.injEq] at h
  obtain ⟨⟨e, m', p'⟩, hw, rfl, rfl⟩ := h
  obtain ⟨missed, -, hf⟩ := workerLoop_forward (m := s.sys.pool) (b := s.buffer) hpush hpop
  refine .op (i := i) (r := ⟨s.sys.pool.parkedCount, missed⟩) trivial ?_
  simp only [State.op, forward, hf, hw, Option.map_some]
  rfl

/-- **A step with late pushes is a step on the deques as their owners see them.** -/
theorem Step.forward (h : Step W s l s') :
    (Queue.lts W .any).Moves s.forward l.event s'.forward := by
  cases h with
  | walk hpc hcs => exact .walk hpc hcs
  | commit h => exact forward_commit h
  | @access _ i e h =>
    rcases access_cases h with ⟨t, k, c, cs, hpc, rfl, rfl⟩ | ⟨t, hpc, hb, rfl, rfl⟩ |
      ⟨hpush, hpop, h | h⟩
    -- for its owner a push is there at once
    · rw [forward_push]
      refine .op (i := i) (r := s.forward.pool.reading) trivial ?_
      simp [State.op, Buffered.forward, hpc, workerLoop]
    -- the owner takes its latest push out of the buffer
    · obtain ⟨d, hd, hf⟩ := forward_pop hb
      rw [hf]
      refine .op (i := i) (r := s.forward.pool.reading) trivial ?_
      have hpc' : s.forward.pc i = .pop := hpc
      simp [State.op, hpc', workerLoop, hd]
    · exact forward_shared_any hpush hpop h
    -- the step drains the buffer first, which the owner does not notice
    · rw [← forward_drain (i := i)]
      exact forward_shared_any hpush (fun _ => by simp [drain]) h

theorem late_refinement (W : Walk T) (s₀ : Buffered n T) :
    LTS.Refinement (lts W) (Queue.lts W .any) Label.event s₀ fun s t => t = s.forward where
  step := by
    rintro s _ l s' - rfl hst
    exact ⟨_, hst.forward, rfl⟩

/-- A run with late pushes, as a run on the deques as their owners see them. -/
theorem forward_run {s₀ : Buffered n T} (h : (lts W).Run s₀ ls s) :
    (Queue.lts W .any).Run s₀.forward (events ls) s.forward := by
  obtain ⟨_, hr, rfl⟩ := (late_refinement W s₀).run h rfl
  exact hr

theorem forward_run_init (h : (lts W).Run (init seeds) ls s) :
    (Queue.lts W .any).Run (.init seeds) (events ls) s.forward := by
  rw [← forward_init]
  exact forward_run h

/-- **Late pushes make nobody leave early, lose nothing, and put nobody to sleep for ever.**  Once
some worker has returned or `shutdown` is set, every item ever seeded or pushed has been taken
exactly once and walked to its end, the deques and the buffers are empty, and this stays so; and in
no reachable state do all workers that have not returned sleep. -/
theorem exit_late (W : Walk T) (seeds : Fin n → List T) {ls : List (Label n T)}
    {s : Buffered n T} (h : (lts W).Run (init seeds) ls s) :
    ((∃ i, s.sys.pc i = .returned) ∨ s.sys.pool.shutdown = true →
      AllWalked seeds (events ls) s.forward ∧ (∀ i, s.buffer i = []) ∧
        ∀ ls' s', (lts W).Run s ls' s' → AllWalked seeds (events (ls ++ ls')) s'.forward) ∧
    ¬ ((∃ i, s.sys.pc i ≠ .returned) ∧ ∀ i, s.sys.pc i ≠ .returned → s.sys.Blocked i) := by
  have hr := forward_run_init h
  refine ⟨fun hq => ?_, not_deadlocked (s := s.forward) hr.reachable⟩
  obtain ⟨hall, hlater⟩ := allWalked_of_exit hr hq
  refine ⟨hall, fun i => (List.append_eq_nil_iff.1 (hall.empty i)).2, fun ls' s' h' => ?_⟩
  rw [events, List.filterMap_append]
  exact hlater _ _ (forward_run h')

/-- Worker 1 misses its wake-up and sleeps; worker 0 walks the child itself and returns. -/
theorem exit_late_two :
    ∃ ls s, (lts (.ofFun fun t => if t = 1 then [0] else [])).Run
        (init fun i : Fin 2 => if i = 0 then [1] else []) ls s ∧ s.sys.pc 0 = .returned ∧
      AllWalked (fun i : Fin 2 => if i = 0 then [1] else []) (events ls) s.forward := by
  obtain ⟨ls, s, -, hr, hs⟩ := LTS.Run.of_exec_map step_of_next
    (show (LTS.exec (next fun t => if t = 1 then [0] else [])
        (List.replicate 6 0 ++ List.replicate 7 1 ++ List.replicate 16 0)
        (init fun i : Fin 2 => if i = 0 then [1] else [])).map (fun x => x.2.sys.pc 0) =
      some .returned by decide)
  exact ⟨ls, s, hr, hs, ((exit_late _ _ hr).1 (Or.inl ⟨0, hs⟩)).1⟩

/-! ### The end of every run -/

theorem idle_late (hs : (lts W).Stuck s) (i : Fin n) :
    s.buffer i = [] ∧ (s.sys.pc i = .returned ∨ s.sys.Blocked i) := by
  have hbuf : s.buffer i = [] := by
    by_contra hne
    obtain ⟨c, cs, hb⟩ := List.exists_cons_of_ne_nil hne
    exact hs (.commit i) _ (.commit (by rw [commit, hb]))
  refine ⟨hbuf, ?_⟩
  have hnone : s.access i = none := by
    cases ha : s.access i with
    | none => rfl
    | some x => exact (hs _ _ (.access ha)).elim
  -- draining an empty buffer leaves the worker where it is
  have hshared : s.shared i = none ∨ (s.drain i).shared i = none := by
    unfold access at hnone
    split at hnone
    · cases hnone
    · rw [hbuf] at hnone
      exact Or.inl hnone
    · split_ifs at hnone
      · exact Or.inr hnone
      · exact Or.inl hnone
  have hwl : ∃ m : Pool n T, m.permit = s.sys.pool.permit ∧
      workerLoop i m.reading m (s.sys.pc i) = none := by
    rcases hshared with hsh | hsh
    · exact ⟨_, rfl, Option.map_eq_none_iff.1 (Option.map_eq_none_iff.1 hsh)⟩
    · exact ⟨(s.drain i).sys.pool, rfl,
        Option.map_eq_none_iff.1 (Option.map_eq_none_iff.1 hsh)⟩
  obtain ⟨m, hperm, hm⟩ := hwl
  rcases workerLoop_eq_none hm with hi | ⟨t, hi⟩ | ⟨hi, hp⟩
  · exact Or.inl hi
  · obtain ⟨cs, hcs⟩ := W.total t
    exact (hs _ _ (.walk hi hcs)).elim
  · exact Or.inr ⟨hi, hperm ▸ hp⟩

/-- The number of pushes that have not become visible. -/
def buffered (s : Buffered n T) : ℕ := ∑ i, (s.buffer i).length

/-- The variant: a push pays for becoming visible. -/
def variant (U : Unfolding T) (s : Buffered n T) : ℕ := 2 * s.forward.variant U + s.buffered

theorem buffered_update (xs : List T) :
    ∑ j, (update s.buffer i xs j).length + (s.buffer i).length = s.buffered + xs.length :=
  Threads.sum_update_add List.length s.buffer i xs

theorem buffered_access (h : s.access i = some (e, s')) : s'.buffered ≤ s.buffered + 1 := by
  have hshared : ∀ {s : Buffered n T}, s.shared i = some (e, s') → s'.buffered = s.buffered := by
    intro s h
    simp only [shared, Option.map_eq_some_iff, Prod.mk.injEq] at h
    obtain ⟨x, -, -, rfl⟩ := h
    rfl
  rcases access_cases h with ⟨t, k, c, cs, -, -, rfl⟩ | ⟨t, -, -, -, rfl⟩ | ⟨-, -, h | h⟩
  -- a push is buffered, a pop takes from the buffer, and other accesses leave or drain it
  · have hsum := buffered_update (s := s) (i := i) (s.buffer i ++ [c])
    simp only [buffered, List.length_append, List.length_singleton] at hsum ⊢
    omega
  · have hsum := buffered_update (s := s) (i := i) (s.buffer i).dropLast
    have hlen := (s.buffer i).length_dropLast
    simp only [buffered] at hsum ⊢
    omega
  · rw [hshared h]
    omega
  · have hsum := buffered_update (s := s) (i := i) []
    rw [hshared h]
    simp only [buffered, drain, List.length_nil] at hsum ⊢
    omega

theorem buffered_commit (h : s.commit i = some s') : s'.buffered + 1 = s.buffered := by
  unfold commit at h
  split at h <;> cases h
  rename_i c cs hb
  have hsum := buffered_update (s := s) (i := i) cs
  rw [hb, List.length_cons] at hsum
  simp only [buffered] at hsum ⊢
  omega

/-- **Every step decreases the variant.** -/
theorem Step.variant_lt {U : Unfolding T} (h : Step (.ofFun U.children) s l s') :
    s'.variant U < s.variant U := by
  have hf := h.forward
  unfold variant
  cases h with
  | @access _ i e h =>
    have hlt : s'.forward.variant U < s.forward.variant U := Queue.Step.variant_lt hf
    have hle := buffered_access h
    omega
  | walk hpc hcs =>
    have hlt := Queue.Step.variant_lt (U := U) hf
    simp only [buffered]
    omega
  | @commit _ i h =>
    have heq : s'.forward = s.forward := hf
    have hlt := buffered_commit h
    rw [heq]
    omega

/-- **Every run with late pushes comes to an end, and completely.**  For the walk of a finite tree
there is a bound on the number of steps of all runs, whatever the scheduling and whenever the
pushes become visible; and in a state without a next step all workers have returned, nothing is
buffered, and every item has been taken exactly once and walked to its end. -/
theorem completes_late (U : Unfolding T) (seeds : Fin n → List T) :
    ∃ N, ∀ ls s, (lts (.ofFun U.children)).Run (init seeds) ls s → ls.length ≤ N ∧
      ((lts (.ofFun U.children)).Stuck s → (∀ i, s.sys.pc i = .returned) ∧
        (∀ i, s.buffer i = []) ∧ AllWalked seeds (events ls) s.forward) := by
  refine ⟨(init seeds : Buffered n T).variant U, fun ls s h => ⟨?_, fun hs => ?_⟩⟩
  · have hle := h.length_add_le (μ := variant U) fun _ _ _ _ hst => hst.variant_lt
    omega
  have hr := forward_run_init h
  -- nobody can go on, and not everybody sleeps: so all have returned
  have hidle : ∀ i, s.forward.pc i = .returned ∨ s.forward.Blocked i := fun i =>
    (idle_late hs i).2
  refine ⟨fun i => ?_, fun i => (idle_late hs i).1,
    allWalked_of_zero hr (dirPending_of_idle hr.reachable hidle)⟩
  by_contra hi
  exact not_deadlocked hr.reachable ⟨⟨i, hi⟩, fun j hj => (hidle j).resolve_left hj⟩

end Buffered

end Queue

end Pfind
