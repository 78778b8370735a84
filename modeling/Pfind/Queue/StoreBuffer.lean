import Pfind.Queue.Wakeup

/-!
# Pushes that become visible late

`Worker::push` publishes an item with release ordering only.  Here a push goes into a FIFO buffer
of the worker, from which it reaches the shared deque at any later moment (`Buffered.commit`), at
the latest when the worker executes a read-modify-write of a counter or a steal
(`Buffered.drain`).  The load of `parked_count` in `maybe_unpark` does not drain the buffer.

* `forward_simulation` : the deques as their owners see them, `Buffered.forward`, go through steps
  of the system of `Queue.Basic`, in which a steal overlooks what is still buffered.
* `not_wakeup_late_two` : **the handshake between the re-check and `maybe_unpark` fails**: a
  producer whose push is still buffered reads `parked_count` before the sleeper announces itself,
  and the sleeper's steal finds the shared deque empty.
* `wakeup_late` : it holds in every run in which no re-check of a worker without a permit overlooks
  the buffered items of a peer that is already past unparking it, `Buffered.Overlooks`.
-/

namespace Pfind

namespace Queue

open Function

variable {n : ℕ} {T : Type*}

/-- A state of the system in which pushes become visible late. -/
structure Buffered (n : ℕ) (T : Type*) where
  /-- The shared memory and the program points. -/
  sys : State n T
  /-- The pushes of each worker that have not reached its shared deque, oldest first. -/
  buffer : Fin n → List T

/-- The next access is a read-modify-write of a counter, or a steal. -/
def Pc.fences (n : ℕ) : Pc T → Bool
  | .announce | .found _ | .leave | .unparked | .addDirs _ _ | .subDirs _ => true
  | .steal k | .recheck k => k < n
  | _ => false

/-- The worker is between its first push and the `sub_dirs(1)` that ends the walk. -/
def Pc.AfterPush : Pc T → Prop
  | .push _ k _ => 0 < k
  | .maybeUnpark _ | .unparkAll _ _ | .subDirs _ => True
  | _ => False

namespace Buffered

/-- All workers are about to start their loop, with nothing buffered. -/
def init (seeds : Fin n → List T) : Buffered n T := ⟨.init seeds, fun _ => []⟩

/-- The oldest buffered push of worker `i` reaches the shared deque. -/
def commit (i : Fin n) (s : Buffered n T) : Option (Buffered n T) :=
  match s.buffer i with
  | [] => none
  | c :: cs => some ⟨⟨s.sys.pool.push i c, s.sys.pc⟩, update s.buffer i cs⟩

/-- All buffered pushes of worker `i` reach the shared deque. -/
def drain (i : Fin n) (s : Buffered n T) : Buffered n T :=
  ⟨⟨s.sys.pool.setDeque i ⟨(s.sys.pool.deque i).items ++ s.buffer i⟩, s.sys.pc⟩,
    update s.buffer i []⟩

/-- The next access of worker `i`, performed on the shared memory. -/
def shared (i : Fin n) (s : Buffered n T) : Option (Event T × Buffered n T) :=
  (s.sys.op i s.sys.pool.reading).map fun x => (x.1, ⟨x.2, s.buffer⟩)

/-- The next access of worker `i`. -/
def access (i : Fin n) (s : Buffered n T) : Option (Event T × Buffered n T) :=
  match s.sys.pc i with
  | .push t k (c :: cs) => some (.pushed c,
      ⟨s.sys.set i s.sys.pool (.push t (k + 1) cs), update s.buffer i (s.buffer i ++ [c])⟩)
  | .pop => match (s.buffer i).getLast? with
    -- the owner sees its own pushes
    | some t => some (.took t,
        ⟨s.sys.set i s.sys.pool (.walk t), update s.buffer i (s.buffer i).dropLast⟩)
    | none => s.shared i
  | p => if p.fences n then (s.drain i).shared i else s.shared i

/-- Who moved, and how. -/
inductive Label (n : ℕ) (T : Type*) where
  /-- Worker `i` performed its next access. -/
  | access (i : Fin n) (e : Event T)
  /-- The walk of worker `i` has found the children of the item. -/
  | walk (i : Fin n)
  /-- A buffered push of worker `i` reached the shared deque. -/
  | commit (i : Fin n)

/-- One step. -/
inductive Step (W : Walk T) : Buffered n T → Label n T → Buffered n T → Prop
  | access {s s' : Buffered n T} {i : Fin n} {e : Event T} :
      s.access i = some (e, s') → Step W s (.access i e) s'
  | walk {s : Buffered n T} {i : Fin n} {t : T} {cs : List T} :
      s.sys.pc i = .walk t → W.publishes t cs →
      Step W s (.walk i) ⟨s.sys.publish i t cs, s.buffer⟩
  | commit {s s' : Buffered n T} {i : Fin n} : s.commit i = some s' → Step W s (.commit i) s'

/-- The system of workers whose pushes become visible late. -/
def lts (W : Walk T) : LTS (Buffered n T) (Label n T) := ⟨Step W⟩

/-- The next access of worker `i`, which holds no permit, is a steal in its re-check which finds the
shared deque of a peer empty although the peer has pushed, and the peer is past unparking worker
`i`. -/
def Overlooks (s : Buffered n T) (i : Fin n) : Prop :=
  ∃ k < n, s.sys.pc i = .recheck k ∧ s.sys.pool.permit i = false ∧
    (s.sys.pool.deque (peer i k)).items = [] ∧ s.buffer (peer i k) ≠ [] ∧
    ¬ (s.sys.pc (peer i k)).Publishing i

/-- The step is not a re-check that overlooks items of a worker past unparking the thief, which
holds no permit. -/
def Paired (s : Buffered n T) : Label n T → Prop
  | .access i _ => ¬ s.Overlooks i
  | _ => True

instance (b : Fin n) (p : Pc T) : Decidable (p.Publishing b) := by
  cases p <;> unfold Pc.Publishing <;> infer_instance

instance [DecidableEq T] (s : Buffered n T) (i : Fin n) : Decidable (s.Overlooks i) :=
  inferInstanceAs (Decidable (∃ k < n, _ ∧ _))

instance [DecidableEq T] (s : Buffered n T) (l : Label n T) : Decidable (s.Paired l) :=
  match l with
  | .access i _ => inferInstanceAs (Decidable (¬ s.Overlooks i))
  | .walk _ => .isTrue trivial
  | .commit _ => .isTrue trivial

end Buffered

/-! ### The deques as their owners see them -/

/-- The shared memory with all buffered pushes carried out. -/
def Pool.forward (m : Pool n T) (b : Fin n → List T) : Pool n T :=
  { m with deque := fun j => ⟨(m.deque j).items ++ b j⟩ }

section Forward

variable {i : Fin n} {m : Pool n T} {b : Fin n → List T}

theorem Pool.forward_setDeque (j : Fin n) (d : Deque T) :
    (m.setDeque j d).forward b = (m.forward b).setDeque j ⟨d.items ++ b j⟩ := by
  simp only [forward, setDeque, mk.injEq, and_true]
  funext j'
  by_cases hj : j' = j
  · subst hj; simp
  · simp [hj]

theorem Pool.forward_release {xs ys : List T} (h : b i = xs ++ ys) :
    (m.setDeque i ⟨(m.deque i).items ++ xs⟩).forward (update b i ys) = m.forward b := by
  simp only [forward, setDeque, mk.injEq, and_true]
  funext j
  by_cases hj : j = i
  · subst hj; simp [h]
  · simp [hj]

/-- A deque with its buffered pushes gives the thief the item that the shared deque gives it, or
the steal overlooks what is buffered. -/
theorem Pool.trySteal_forward (j : Fin n) :
    ∃ missed, (missed = true → (m.deque j).items = [] ∧ b j ≠ []) ∧
      (m.forward b).trySteal ⟨m.parkedCount, missed⟩ j =
        (m.trySteal m.reading j).map fun x => (x.1, ⟨x.2.items ++ b j⟩) := by
  cases hd : (m.deque j).items with
  | nil =>
    by_cases hb : b j = []
    · refine ⟨false, nofun, ?_⟩
      simp [trySteal, reading, forward, Deque.steal, hd, hb]
    · refine ⟨true, fun _ => ⟨rfl, hb⟩, ?_⟩
      simp [trySteal, reading, Deque.steal, hd]
  | cons x xs =>
    refine ⟨false, nofun, ?_⟩
    simp [trySteal, reading, forward, Deque.steal, hd]

/-- **An access to the shared memory is an access to the forwarded one**, in which a steal may
overlook what is buffered. -/
theorem workerLoop_forward {p : Pc T} (hpush : ∀ t k c cs, p ≠ .push t k (c :: cs))
    (hpop : p = .pop → b i = []) :
    ∃ missed, (missed = true → ∀ k, p = .recheck k →
        k < n ∧ (m.deque (peer i k)).items = [] ∧ b (peer i k) ≠ []) ∧
      workerLoop i ⟨m.parkedCount, missed⟩ (m.forward b) p =
        (workerLoop i m.reading m p).map fun x => (x.1, x.2.1.forward b, x.2.2) := by
  cases p with
  | pop =>
    refine ⟨false, by simp, ?_⟩
    have hd : (m.forward b).deque i = m.deque i := by simp [Pool.forward, hpop rfl]
    simp only [workerLoop, hd]
    cases (m.deque i).pop with
    | none => rfl
    | some x => simp [Pool.forward_setDeque, hpop rfl]
  | steal k =>
    obtain ⟨missed, -, hst⟩ := Pool.trySteal_forward (m := m) (b := b) (peer i k)
    refine ⟨missed, by simp, ?_⟩
    simp only [workerLoop, hst]
    split_ifs
    · cases m.trySteal m.reading (peer i k) with
      | none => rfl
      | some x => simp [Pool.forward_setDeque]
    · rfl
  | recheck k =>
    obtain ⟨missed, hmiss, hst⟩ := Pool.trySteal_forward (m := m) (b := b) (peer i k)
    by_cases hk : k < n
    · refine ⟨missed, ?_, ?_⟩
      · rintro hm _ ⟨rfl⟩
        exact ⟨hk, hmiss hm⟩
      · simp only [workerLoop, hst, hk, if_true]
        cases m.trySteal m.reading (peer i k) with
        | none => rfl
        | some x => simp [Pool.forward_setDeque]
    · exact ⟨false, by simp, by simp [workerLoop, hk]⟩
  | push t k cs =>
    cases cs with
    | nil => exact ⟨false, by simp, rfl⟩
    | cons c cs => exact absurd rfl (hpush t k c cs)
  | park =>
    refine ⟨false, by simp, ?_⟩
    have hperm : (m.forward b).permit i = m.permit i := rfl
    simp only [workerLoop, hperm]
    split_ifs <;> rfl
  | broadcast k | unparkAll _ k =>
    refine ⟨false, by simp, ?_⟩
    simp only [workerLoop]
    split_ifs <;> rfl
  | _ => exact ⟨false, by simp, rfl⟩

end Forward

namespace Buffered

variable {W : Walk T} {seeds : Fin n → List T} {s s' : Buffered n T} {i : Fin n} {e : Event T}

/-- The state with all buffered pushes carried out. -/
def forward (s : Buffered n T) : State n T := ⟨s.sys.pool.forward s.buffer, s.sys.pc⟩

theorem forward_init (seeds : Fin n → List T) : (init seeds).forward = .init seeds := by
  simp [init, forward, Pool.forward, State.init, Pool.seeded]

theorem forward_drain : (s.drain i).forward = s.forward := by
  simp only [forward, drain, Pool.forward_release (List.append_nil (s.buffer i)).symm]

theorem forward_commit (h : s.commit i = some s') : s'.forward = s.forward := by
  unfold commit at h
  split at h <;> cases h
  rename_i c cs hb
  have hb' : s.buffer i = [c] ++ cs := hb
  exact congrArg (State.mk · s.sys.pc) (Pool.forward_release hb')

theorem forward_push (t c : T) (k : ℕ) (cs : List T) :
    forward ⟨s.sys.set i s.sys.pool (.push t (k + 1) cs), update s.buffer i (s.buffer i ++ [c])⟩ =
      s.forward.set i (s.forward.pool.push i c) (.push t (k + 1) cs) := by
  simp only [forward, State.set, State.mk.injEq, and_true, Pool.forward, Pool.push, Pool.setDeque,
    Pool.mk.injEq]
  funext j
  by_cases hj : j = i
  · subst hj; simp [Deque.push]
  · simp [hj]

theorem forward_pop {t : T} (h : (s.buffer i).getLast? = some t) :
    ∃ d, (s.forward.pool.deque i).pop = some (t, d) ∧
      forward ⟨s.sys.set i s.sys.pool (.walk t), update s.buffer i (s.buffer i).dropLast⟩ =
        s.forward.set i (s.forward.pool.setDeque i d) (.walk t) := by
  have hne : s.buffer i ≠ [] := by rintro he; simp [he] at h
  refine ⟨⟨(s.sys.pool.deque i).items ++ (s.buffer i).dropLast⟩, ?_, ?_⟩
  · simp [forward, Pool.forward, Deque.pop, h, List.dropLast_append_of_ne_nil hne]
  · simp only [forward, State.set, State.mk.injEq, and_true, Pool.forward, Pool.setDeque,
      Pool.mk.injEq]
    funext j
    by_cases hj : j = i
    · subst hj; simp
    · simp [hj]

theorem forward_shared (hpush : ∀ t k c cs, s.sys.pc i ≠ .push t k (c :: cs))
    (hpop : s.sys.pc i = .pop → s.buffer i = []) (ho : ¬ s.Overlooks i)
    (h : s.shared i = some (e, s')) :
    (Queue.lts W .handshake).step s.forward e s'.forward := by
  simp only [shared, State.op, Option.map_map, Option.map_eq_some_iff, Function.comp,
    Prod.mk.injEq] at h
  obtain ⟨⟨e, m', p'⟩, hw, rfl, rfl⟩ := h
  obtain ⟨missed, hmiss, hf⟩ := workerLoop_forward (m := s.sys.pool) (b := s.buffer) hpush hpop
  refine .op (i := i) (r := ⟨s.sys.pool.parkedCount, missed⟩) ⟨rfl, fun k hk hm => ?_⟩ ?_
  · obtain ⟨hlt, hd, hb⟩ := hmiss hm k hk
    by_contra hpub
    obtain ⟨hperm, hpub⟩ := not_or.1 hpub
    exact ho ⟨k, hlt, hk, eq_false_of_ne_true hperm, hd, hb, hpub⟩
  · simp only [State.op, forward, hf, hw, Option.map_some]
    rfl

theorem overlooks_of_drain (h : (s.drain i).Overlooks i) : s.Overlooks i := by
  obtain ⟨k, hk, hpc, hperm, hd, hb, hpub⟩ := h
  have hne : peer i k ≠ i := fun he => hb (by simp [drain, he])
  simp only [drain, Pool.setDeque, update_of_ne hne] at hpc hperm hd hb hpub
  exact ⟨k, hk, hpc, hperm, hd, hb, hpub⟩

theorem access_cases (h : s.access i = some (e, s')) :
    (∃ t k c cs, s.sys.pc i = .push t k (c :: cs) ∧ e = .pushed c ∧
      s' = ⟨s.sys.set i s.sys.pool (.push t (k + 1) cs),
        update s.buffer i (s.buffer i ++ [c])⟩) ∨
    (∃ t, s.sys.pc i = .pop ∧ (s.buffer i).getLast? = some t ∧ e = .took t ∧
      s' = ⟨s.sys.set i s.sys.pool (.walk t), update s.buffer i (s.buffer i).dropLast⟩) ∨
    (∀ t k c cs, s.sys.pc i ≠ .push t k (c :: cs)) ∧ (s.sys.pc i = .pop → s.buffer i = []) ∧
      (s.shared i = some (e, s') ∨ (s.drain i).shared i = some (e, s')) := by
  unfold access at h
  split at h
  · rename_i t k c cs hpc
    cases h
    exact Or.inl ⟨t, k, c, cs, hpc, rfl, rfl⟩
  · rename_i hpc
    split at h
    · rename_i t ht
      cases h
      exact Or.inr (Or.inl ⟨t, hpc, ht, rfl, rfl⟩)
    · rename_i hb
      exact Or.inr (Or.inr ⟨by simp [hpc], fun _ => List.getLast?_eq_none_iff.1 hb, Or.inl h⟩)
  · rename_i hpush hpop
    refine Or.inr (Or.inr ⟨hpush, fun hp => (hpop hp).elim, ?_⟩)
    split_ifs at h
    · exact Or.inr h
    · exact Or.inl h

/-- **The forwarded states of a run in which every step is paired go through steps of the
system whose re-checks overlook only what will be announced.** -/
theorem forward_simulation (W : Walk T) :
    LTS.Simulation ((lts W).restrict (Paired (n := n))) (Queue.lts W .handshake)
      fun s t => t = s.forward where
  step := by
    rintro s _ l s' rfl ⟨hok, hst⟩
    cases hst with
    | walk hpc hcs => exact Or.inr ⟨_, _, .walk hpc hcs, rfl⟩
    | commit h => exact Or.inl (forward_commit h).symm
    | @access _ i e h =>
      have ho : ¬ s.Overlooks i := hok
      refine Or.inr ⟨e, _, ?_, rfl⟩
      rcases access_cases h with ⟨t, k, c, cs, hpc, rfl, rfl⟩ | ⟨t, hpc, hb, rfl, rfl⟩ |
        ⟨hpush, hpop, h | h⟩
      · rw [forward_push]
        refine .op (i := i) (r := s.forward.pool.reading) ⟨rfl, nofun⟩ ?_
        simp [State.op, forward, hpc, workerLoop]
      · obtain ⟨d, hd, hf⟩ := forward_pop hb
        rw [hf]
        refine .op (i := i) (r := s.forward.pool.reading) ⟨rfl, nofun⟩ ?_
        have hpc' : s.forward.pc i = .pop := hpc
        simp [State.op, hpc', workerLoop, hd]
      · exact forward_shared hpush hpop ho h
      · rw [← forward_drain (i := i)]
        exact forward_shared hpush (fun _ => by simp [drain]) (fun h => ho (overlooks_of_drain h)) h

/-- **The re-check pairs with `maybe_unpark` unless a late push is overlooked**: in every run in
which no re-check of a worker without a permit overlooks the buffered items of a peer that is past
unparking it, a worker sleeps outside all publish sections only if the deques of the others are
empty. -/
theorem wakeup_late (W : Walk T) (seeds : Fin n → List T) {s : Buffered n T}
    (h : ((lts W).restrict Paired).Reachable (init seeds) s)
    (hq : ∀ i, ¬ (s.sys.pc i).AfterPush) {a b : Fin n} (hb : s.sys.Blocked b) :
    (s.sys.pool.deque a).items = [] := by
  obtain ⟨_, hr, rfl⟩ := (forward_simulation W).reachable h rfl
  rw [forward_init] at hr
  by_contra hne
  have hpub := no_lost_wakeup (a := a) (fun _ _ _ hM => hM) hr hb
    (fun he => hne (List.append_eq_nil_iff.1 he).1)
  have hpub' : (s.sys.pc a).Publishing b := hpub
  refine hq a ?_
  cases hpc : s.sys.pc a <;> rw [hpc] at hpub' <;> first | exact hpub'.elim | exact hpub' | trivial

/-- The next step of worker `i` when the walk of `t` finds the children `f t`. -/
def next (f : T → List T) (s : Buffered n T) (i : Fin n) : Option (Label n T × Buffered n T) :=
  match s.sys.pc i with
  | .walk t => some (.walk i, ⟨s.sys.publish i t (f t), s.buffer⟩)
  | _ => (s.access i).map fun x => (.access i x.1, x.2)

theorem step_of_next {f : T → List T} {l : Label n T} (h : s.next f i = some (l, s')) :
    (lts (.ofFun f)).step s l s' := by
  unfold next at h
  split at h
  · cases h; exact .walk ‹_› rfl
  · simp only [Option.map_eq_some_iff, Prod.mk.injEq] at h
    obtain ⟨⟨e, s''⟩, ha, rfl, rfl⟩ := h
    exact .access ha

/-- The next step of worker `i`, if it overlooks nothing from a worker past unparking `i`. -/
def nextPaired [DecidableEq T] (f : T → List T) (s : Buffered n T) (i : Fin n) :
    Option (Label n T × Buffered n T) :=
  (s.next f i).filter fun x => s.Paired x.1

theorem step_of_nextPaired [DecidableEq T] {f : T → List T} {l : Label n T}
    (h : s.nextPaired f i = some (l, s')) : ((lts (.ofFun f)).restrict Paired).step s l s' := by
  obtain ⟨hn, hp⟩ := Option.filter_eq_some_iff.1 h
  exact ⟨of_decide_eq_true hp, step_of_next hn⟩

/-- The re-check of worker 1 overlooks the child that worker 0 has pushed, and worker 1 sleeps, but
worker 0 is still going to unpark it.  It wakes up, finds no item, and sleeps while worker 0 walks
the child. -/
theorem wakeup_late_two :
    ∃ (s₁ s : Buffered 2 ℕ) (ls : List (Label 2 ℕ)),
      ((lts (.ofFun fun t => if t = 1 then [0] else [])).restrict Paired).Reachable
        (init fun i : Fin 2 => if i = 0 then [1] else []) s₁ ∧
      s₁.sys.Blocked 1 ∧ s₁.buffer 0 = [0] ∧ (s₁.sys.pc 0).Publishing (1 : Fin 2) ∧
      ((lts (.ofFun fun t => if t = 1 then [0] else [])).restrict Paired).Run s₁ ls s ∧
      s.sys.Blocked 1 ∧ (s.sys.pool.deque 0).items = [] := by
  -- up to the first sleep of worker 1, and on to the second
  obtain ⟨⟨⟨ls₁, s₁⟩, ls, s⟩, hx, hs⟩ := Option.map_eq_some_iff.1
    (show ((LTS.exec (nextPaired fun t => if t = 1 then [0] else [])
        [0, 0, 0, 0, 1, 1, 1, 1, 1, 1, 1]
        (init fun i : Fin 2 => if i = 0 then [1] else [])).bind fun x =>
      (LTS.exec (nextPaired fun t => if t = 1 then [0] else [])
        [0, 0, 0, 0, 0, 0, 0, 1, 1, 1, 1, 1, 1, 1, 1, 1, 1] x.2).map fun y => (x, y)).map
        (fun x => (((x.1.2.sys.pc 1, x.1.2.sys.pool.permit 1), x.1.2.buffer 0, x.1.2.sys.pc 0),
          x.2.2.sys.pc 0, x.2.2.sys.pc 1, x.2.2.sys.pool.permit 1)) =
      some (((.park, false), [0], .push 1 1 []), .walk 0, .park, false) by decide)
  obtain ⟨⟨ls₁', s₁'⟩, hx₁, hx⟩ := Option.bind_eq_some_iff.1 hx
  obtain ⟨⟨ls', s'⟩, hx₂, he⟩ := Option.map_eq_some_iff.1 hx
  cases he
  simp only [Prod.mk.injEq] at hs
  obtain ⟨⟨hb₁, hbuf, hpub⟩, h0, hb⟩ := hs
  have hr₁ := LTS.Run.of_exec step_of_nextPaired hx₁
  have hr := LTS.Run.of_exec step_of_nextPaired hx₂
  have hq : ∀ i, ¬ (s.sys.pc i).AfterPush :=
    Fin.forall_fin_two.2 ⟨by rw [h0]; exact id, by rw [hb.1]; exact id⟩
  exact ⟨s₁, s, ls, hr₁.reachable, hb₁, hbuf, by rw [hpub]; exact Nat.one_pos, hr, hb,
    wakeup_late _ _ (hr₁.reachable.trans hr.reachable) hq hb⟩

/-- **A lost wake-up.**  Worker 0 walks a root with one child, buffers the child and finds nobody
announced; worker 1 announces itself, finds the deque of worker 0 empty and parks; worker 0 ends
its walk, which makes the child visible. -/
theorem not_wakeup_late_two :
    ¬ ∀ s, (lts (.ofFun fun t => if t = 1 then [0] else [])).Reachable
        (init fun i : Fin 2 => if i = 0 then [1] else []) s →
      (∀ i, ¬ (s.sys.pc i).AfterPush) → ∀ a b, a ≠ b → s.sys.Blocked b →
        (s.sys.pool.deque a).items = [] := by
  obtain ⟨ls, s, -, hr, hs⟩ := LTS.Run.of_exec_map step_of_next
    (show (LTS.exec (next fun t => if t = 1 then [0] else [])
        [0, 0, 0, 0, 0, 0, 1, 1, 1, 1, 1, 1, 1, 0]
        (init fun i : Fin 2 => if i = 0 then [1] else [])).map
        (fun x => ((x.2.sys.pc 0, x.2.sys.pc 1), x.2.sys.pool.permit 1,
          (x.2.sys.pool.deque 0).items)) =
      some ((.pop, .park), false, [0]) by decide)
  simp only [Prod.mk.injEq] at hs
  obtain ⟨⟨h0, h1⟩, hperm, hd⟩ := hs
  have hq : ∀ i, ¬ (s.sys.pc i).AfterPush :=
    Fin.forall_fin_two.2 ⟨by rw [h0]; exact id, by rw [h1]; exact id⟩
  intro hall
  have hempty := hall s hr.reachable hq 0 1 (by decide) ⟨h1, hperm⟩
  rw [hd] at hempty
  cases hempty

end Buffered

end Queue

end Pfind
