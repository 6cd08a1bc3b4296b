import Shclog.MPSCQueue.Accounting

/-! # `MPSCQueue`: what an answer means

A `false` from `enqueue` and a null from `dequeue` are given in the middle of other calls, when the
queue is neither as full nor as empty as it may look. Here is what each of them does say: of one
moment during the call. -/

namespace Shclog.MPSCQueue

open Lib

variable {T P : Type} [DecidableEq P] {k : Nat} {q : MPSCQueue T} {capacity : Usize}
  {tr seg : List (Event T P)} {e : Event T P} {s s' m m' : State T P} {p : P} {v : T}

/-! ## Calls of `dequeue` -/

/-- A call of `dequeue`, from its first operation to the one with which it returns `r`, and whatever
the others do in between. -/
structure Dequeues (s : State T P) (seg : List (Event T P)) (r : Option T) (s' : State T P) :
    Prop where
  outside : s.deq = none
  begins : ∃ rest, seg = (dequeueStep s).1 :: rest ∧ Run Step (dequeueStep s).2 rest s'
  returns : ∃ mid e, seg = mid ++ [e] ∧ (∀ x ∈ mid, x.result? = none) ∧ e.result? = some r

/-- A producer's step returns nothing from `dequeue`. -/
theorem enqueueStep_result (pc : Enqueue T) :
    (enqueueStep s p pc).1.result? = none ∧ (enqueueStep s p pc).2.deq = s.deq := by
  cases pc with
  | load v =>
      cases v with
      | none => exact ⟨rfl, rfl⟩
      | some v =>
          rw [enqueueStep]
          split <;> exact ⟨rfl, rfl⟩
  | reserve v =>
      rw [enqueueStep]
      split <;> exact ⟨rfl, rfl⟩
  | _ => exact ⟨rfl, rfl⟩

/-- The consumer keeps what it has taken until it returns it. -/
theorem step_holding (hd : s.deq = some v) (h : Step s e s') :
    (e.result? = none ∧ s'.deq = some v) ∨ ∃ r, e.result? = some r ∧ r = some v := by
  cases h with
  | call w hp => exact .inl ⟨rfl, hd⟩
  | enqueue hp =>
      rename_i p pc
      obtain ⟨hres, hdeq⟩ := enqueueStep_result (s := s) (p := p) pc
      exact .inl ⟨hres, hdeq.trans hd⟩
  | dequeue =>
      right
      rw [dequeueStep, hd]
      exact ⟨some v, rfl, rfl⟩

/-- What the first operation of a call finds is what the call returns. -/
theorem Dequeues.eq_found {r : Option T} (h : Dequeues s seg r s') :
    r = s.queue.buffer s.queue.tail := by
  obtain ⟨rest, hseg, hrun⟩ := h.begins
  obtain ⟨mid, e, rfl, hmid, he⟩ := h.returns
  rw [dequeueStep, h.outside] at hseg hrun
  cases hbuf : s.queue.buffer s.queue.tail with
  | none =>
      rw [hbuf] at hseg
      cases mid with
      | nil =>
          obtain ⟨rfl, -⟩ := List.cons.inj hseg
          exact (Option.some.inj he).symm
      | cons x mid =>
          obtain ⟨rfl, -⟩ := List.cons.inj hseg
          have hnone : Event.result? (Event.dequeued none : Event T P) = none :=
            hmid _ List.mem_cons_self
          cases hnone
  | some ret =>
      rw [hbuf] at hseg hrun
      cases mid with
      | nil =>
          obtain ⟨rfl, -⟩ := List.cons.inj hseg
          cases he
      | cons x mid =>
          obtain ⟨rfl, rfl⟩ := List.cons.inj hseg
          rw [List.forall_mem_cons] at hmid
          exact hrun.until_result (D := fun _ m => m.deq = some ret) (R := fun r _ _ => r = some ret)
            rfl (fun _ _ _ _ _ hd hs => step_holding hd hs) hmid.2 he

/-- A call that finds nothing is over at once. -/
theorem Dequeues.null (h : Dequeues s seg none s') : seg = [.dequeued none] ∧ s' = s := by
  have hbuf : s.queue.buffer s.queue.tail = none := h.eq_found.symm
  have hstep : dequeueStep s = (.dequeued none, s) := by
    have hd := h.outside
    rw [dequeueStep, hd, hbuf]
    dsimp only
    rw [clear_of_empty hbuf]
    cases s
    cases hd
    rfl
  obtain ⟨rest, hseg, hrun⟩ := h.begins
  obtain ⟨mid, e, rfl, hmid, he⟩ := h.returns
  rw [hstep] at hseg hrun
  cases mid with
  | nil =>
      obtain ⟨rfl, rfl⟩ := List.cons.inj hseg
      exact ⟨rfl, Run.nil_iff.mp hrun⟩
  | cons x mid =>
      obtain ⟨rfl, -⟩ := List.cons.inj hseg
      have hnone : Event.result? (Event.dequeued none : Event T P) = none :=
        hmid _ List.mem_cons_self
      cases hnone

omit [DecidableEq P] in
/-- The cell the consumer looks at, with nothing taken out of it. -/
theorem Slots.front_eq {g : Log (Call P × T)} (hi : Slots k s g) (hd : s.deq = none) :
    (∀ c v, g.pushed[g.popped]? = some (c, v) → ¬ s.Storing c →
        s.queue.buffer s.queue.tail = some v) ∧
      ((∀ c v, g.pushed[g.popped]? = some (c, v) → s.Storing c) →
        s.queue.buffer s.queue.tail = none) := by
  have htaken : s.taken g = g.popped := by simp [State.taken, hd]
  rw [hi.tail, htaken]
  refine ⟨?_, ?_⟩
  · intro c v hget hno
    rcases hi.cell _ c v (Nat.le_of_eq htaken) hget with ⟨hs, -⟩ | ⟨-, hcell⟩
    · exact absurd hs hno
    · exact hcell
  · intro hall
    cases hget : g.pushed[g.popped]? with
    | none =>
        refine hi.empty _ (List.getElem?_eq_none_iff.mp hget) ?_
        rw [htaken]
        exact Nat.lt_add_of_pos_right (Nat.two_pow_pos k)
    | some a =>
        rcases hi.cell _ a.1 a.2 (Nat.le_of_eq htaken) hget with ⟨-, hcell⟩ | ⟨hno, -⟩
        · exact hcell
        · exact absurd (hall a.1 a.2 hget) hno

/-! ## Calls of `enqueue` -/

/-- What the call `c` returns, if that is the step at which it does. -/
def Event.returned? (c : Call P) : Event T P → Option (Bool × Option T)
  | .returned c' b w => if c' = c then some (b, w) else none
  | _ => none

/-- A call of `enqueue` by `p`, from when it begins to when it returns `b`, and whatever the others
do in between. -/
structure Enqueues (p : P) (v : T) (s : State T P) (seg : List (Event T P)) (b : Bool)
    (s' : State T P) : Prop where
  outside : s.enq p = none
  begins : ∃ rest, seg = .called (s.call p) (some v) :: rest ∧
    Run Step (s.goto s.queue p (.load (some v))) rest s'
  returns : ∃ mid e w, seg = mid ++ [e] ∧ (∀ x ∈ mid, x.returned? (s.call p) = none) ∧
    e.returned? (s.call p) = some (b, w)

/-- Accepted reservations that have not been released, and failed ones that have not been taken
back, take up the whole capacity. -/
def Full [Fintype P] (tr : List (Event T P)) (s : State T P) : Prop :=
  s.queue.max.toNat ≤ (accepted tr - released tr) + s.undoing

/-- A step of another thread. -/
theorem step_aside (h : Step s e s') :
    (s'.enq p = s.enq p ∧ s'.calls p = s.calls p ∧ e.returned? (s.call p) = none) ∨
      (s.enq p = none ∧ ∃ w, e = .called (s.call p) w) ∨
      ∃ pc, s.enq p = some pc ∧ e = (enqueueStep s p pc).1 ∧ s' = (enqueueStep s p pc).2 := by
  cases h with
  | call w hp =>
      rename_i r
      by_cases hr : r = p
      · subst hr
        exact .inr (.inl ⟨hp, w, rfl⟩)
      · exact .inl ⟨Function.update_of_ne (Ne.symm hr) _ _, rfl, rfl⟩
  | enqueue hp =>
      rename_i r pc
      by_cases hr : r = p
      · subst hr
        exact .inr (.inr ⟨pc, hp, rfl, rfl⟩)
      · left
        have hpr : p ≠ r := Ne.symm hr
        have hgoto : ∀ (q : MPSCQueue T) (pc' : Enqueue T) (e : Event T P),
            e.returned? (s.call p) = none →
            (s.goto q r pc').enq p = s.enq p ∧ (s.goto q r pc').calls p = s.calls p ∧
              e.returned? (s.call p) = none := by
          intro q pc' e he
          exact ⟨Function.update_of_ne hpr _ _, rfl, he⟩
        have hleave : ∀ (q : MPSCQueue T) (b : Bool) (w : Option T),
            (s.leave q r).enq p = s.enq p ∧ (s.leave q r).calls p = s.calls p ∧
              (Event.returned (s.call r) b w).returned? (s.call p) = none := by
          intro q b w
          refine ⟨Function.update_of_ne hpr _ _, Function.update_of_ne hpr _ _, if_neg ?_⟩
          intro heq
          exact hr (congrArg Prod.fst heq)
        cases pc with
        | load v =>
            cases v with
            | none => exact hleave _ _ _
            | some v =>
                rw [enqueueStep]
                split
                · exact hleave _ _ _
                · exact hgoto _ _ _ rfl
        | reserve v =>
            rw [enqueueStep]
            split
            · exact hgoto _ _ _ rfl
            · exact hgoto _ _ _ rfl
        | undo v => exact hleave _ _ _
        | ticket v => exact hgoto _ _ _ rfl
        | store v h => exact hleave _ _ _
  | dequeue =>
      left
      rw [dequeueStep]
      cases s.deq with
      | none => cases s.queue.buffer s.queue.tail <;> exact ⟨rfl, rfl, rfl⟩
      | some ret => exact ⟨rfl, rfl, rfl⟩

/-- What is known to a call of `enqueue` from where it stands. -/
def Enqueue.Knows (full room : Prop) : Enqueue T → Prop
  | .undo _ => full
  | .ticket _ | .store _ _ => room
  | _ => True

theorem Enqueue.Knows.mono {full full' room room' : Prop} {pc : Enqueue T}
    (h : pc.Knows full room) (hfull : full → full') (hroom : room → room') :
    pc.Knows full' room' := by
  cases pc with
  | undo v => exact hfull h
  | ticket v => exact hroom h
  | store v h' => exact hroom h
  | _ => trivial

section Runs

variable [Fintype P]

/-- The early load and the reservation find the queue full exactly when it is. -/
theorem run_full_iff (hfit : 2 ^ k + Fintype.card P < 2 ^ 64) (hk : k < 64)
    (h : Run Step (State.init (new (BitVec.ofNat 64 (2 ^ k)))) tr s) :
    Full tr s ↔ s.queue.count ≥ s.queue.max := by
  obtain ⟨g, hi, hg, hpop, -⟩ := run_inv hfit (Nat.le_of_lt hk) h
  have hle := g.popped_le
  have hres : s.reserved g = accepted tr - released tr := by
    rw [State.reserved, run_accepted h, released_eq tr, ← hg, ← hpop]
    omega
  rw [hi.ledger.full_iff hfit, Full, hi.ledger.max, Usize.toNat_two_pow hk, hres, State.undoing]

/-- A call of `enqueue` by `p` that began at `s` is under way. -/
structure UnderWay (p : P) (v : T) (tr : List (Event T P)) (s : State T P)
    (seg : List (Event T P)) (m : State T P) : Prop where
  calls : m.calls p = s.calls p
  inside : ∃ pc, m.enq p = some pc ∧ pc.arg = some v ∧
    pc.Knows (Run.Sometime Step (fun seg m => Full (tr ++ seg) m) s seg m)
      (Run.Sometime Step (fun seg m => ¬ Full (tr ++ seg) m) s seg m)

/-- What a call that began at `s` and has just returned `b` has met with. -/
def Met (tr : List (Event T P)) (s : State T P) (b : Bool) (seg : List (Event T P))
    (m : State T P) : Prop :=
  (b = false → Run.Sometime Step (fun seg m => Full (tr ++ seg) m) s seg m) ∧
    (b = true → Run.Sometime Step (fun seg m => ¬ Full (tr ++ seg) m) s seg m)

/-- The call's own step. -/
theorem UnderWay.own (hiff : Full (tr ++ seg) m ↔ m.queue.count ≥ m.queue.max)
    (hrun : Run Step s seg m) (hu : UnderWay p v tr s seg m) {pc : Enqueue T}
    (hp : m.enq p = some pc) :
    ((enqueueStep m p pc).1.returned? (s.call p) = none ∧
      UnderWay p v tr s (seg ++ [(enqueueStep m p pc).1]) (enqueueStep m p pc).2) ∨
    ∃ b w, (enqueueStep m p pc).1.returned? (s.call p) = some (b, w) ∧
      Met tr s b (seg ++ [(enqueueStep m p pc).1]) (enqueueStep m p pc).2 := by
  have hs := Step.enqueue hp
  obtain ⟨pc', hp', harg, hknows⟩ := hu.inside
  obtain rfl : pc' = pc := Option.some.inj (hp'.symm.trans hp)
  have hcall : m.call p = s.call p := by rw [State.call, hu.calls, State.call]
  have hnow : ∀ {Q : List (Event T P) → State T P → Prop}, Q seg m →
      Run.Sometime Step Q s (seg ++ [(enqueueStep m p pc').1]) (enqueueStep m p pc').2 :=
    fun hq => Run.sometime_snoc hrun (.inl hq) hs
  have hbefore : ∀ {Q : List (Event T P) → State T P → Prop}, Run.Sometime Step Q s seg m →
      Run.Sometime Step Q s (seg ++ [(enqueueStep m p pc').1]) (enqueueStep m p pc').2 :=
    fun hq => Run.sometime_snoc hrun (.inr hq) hs
  cases pc' with
  | load w =>
      obtain rfl : w = some v := harg
      rw [enqueueStep] at hnow hbefore ⊢
      split
      · next hge =>
          rw [if_pos hge] at hnow
          refine .inr ⟨false, some v, if_pos hcall, fun _ => hnow (hiff.mpr hge), ?_⟩
          intro h
          cases h
      · refine .inl ⟨rfl, hu.calls, _, Function.update_self .., rfl, trivial⟩
  | reserve w =>
      obtain rfl : w = v := Option.some.inj harg
      rw [enqueueStep] at hnow hbefore ⊢
      split
      · next hge =>
          rw [if_pos hge] at hnow
          exact .inl ⟨rfl, hu.calls, _, Function.update_self .., rfl, hnow (hiff.mpr hge)⟩
      · next hlt =>
          rw [if_neg hlt] at hnow
          exact .inl ⟨rfl, hu.calls, _, Function.update_self .., rfl,
            hnow fun hfull => hlt (hiff.mp hfull)⟩
  | undo w =>
      refine .inr ⟨false, some w, if_pos hcall, fun _ => hbefore hknows, ?_⟩
      intro h
      cases h
  | ticket w =>
      exact .inl ⟨rfl, hu.calls, _, Function.update_self .., harg, hbefore hknows⟩
  | store w h =>
      refine .inr ⟨true, none, if_pos hcall, ?_, fun _ => hbefore hknows⟩
      intro h
      cases h

/-- Another step, by anybody. -/
theorem UnderWay.step (hiff : Full (tr ++ seg) m ↔ m.queue.count ≥ m.queue.max)
    (hrun : Run Step s seg m) (hu : UnderWay p v tr s seg m) (hs : Step m e m') :
    (e.returned? (s.call p) = none ∧ UnderWay p v tr s (seg ++ [e]) m') ∨
      ∃ r, e.returned? (s.call p) = some r ∧ Met tr s r.1 (seg ++ [e]) m' := by
  obtain ⟨pc, hp, harg, hknows⟩ := hu.inside
  have hcall : m.call p = s.call p := by rw [State.call, hu.calls, State.call]
  rcases step_aside (p := p) hs with ⟨henq, hcalls, hret⟩ | ⟨hnone, -⟩ | ⟨pc', hp', rfl, rfl⟩
  · left
    refine ⟨hcall ▸ hret, hcalls.trans hu.calls, pc, henq.trans hp, harg, ?_⟩
    exact hknows.mono (fun h => Run.sometime_snoc hrun (.inr h) hs)
      fun h => Run.sometime_snoc hrun (.inr h) hs
  · rw [hp] at hnone
    cases hnone
  · rcases hu.own hiff hrun hp' with h | ⟨b, w, hret, hmet⟩
    · exact .inl h
    · exact .inr ⟨(b, w), hret, hmet⟩

/-! ## The theorem -/

/-- What calls made in the state `s` that the run `tr` leads to return. -/
structure Answers (tr : List (Event T P)) (s : State T P) : Prop where
  /-- `dequeue` returns the oldest item with a ticket, if that is in its cell when it looks -/
  oldest : ∀ seg r s' c v, Dequeues s seg r s' →
    (tickets tr)[(delivered tr).length]? = some (c, v) → ¬ s.Storing c → r = some v
  /-- and null, at once and without a trace, if there is none or its producer has yet to store it -/
  null : ∀ seg r s', Dequeues s seg r s' →
    (∀ c v, (tickets tr)[(delivered tr).length]? = some (c, v) → s.Storing c) →
    r = none ∧ seg = [.dequeued none] ∧ s' = s
  /-- `enqueue` returns false only if the queue was full at some moment of the call -/
  refused : ∀ p v seg s', Enqueues p v s seg false s' →
    Run.Sometime Step (fun seg m => Full (tr ++ seg) m) s seg s'
  /-- and true only if at some moment it was not -/
  accepted : ∀ p v seg s', Enqueues p v s seg true s' →
    Run.Sometime Step (fun seg m => ¬ Full (tr ++ seg) m) s seg s'

/-- **Every answer of `MPSCQueue` has a reason**, whatever the producers, the earlier calls and the
interleaving. -/
theorem answers_explained {bufAlloc queueAlloc : Bool}
    (hq : create capacity bufAlloc queueAlloc = .ok q)
    (hP : capacity.toNat + Fintype.card P < 2 ^ 64) (h : Run Step (State.init q) tr s) :
    Answers tr s := by
  obtain ⟨rfl, k, -, hk, rfl⟩ := create_ok hq
  rw [Usize.toNat_two_pow hk] at hP
  obtain ⟨g, hi, hg, hpop, -⟩ := run_inv hP (Nat.le_of_lt hk) h
  have hmet : ∀ p v seg b s', Enqueues p v s seg b s' → Met tr s b seg s' := by
    intro p v seg b s' hcall
    obtain ⟨rest, hseg, hrun⟩ := hcall.begins
    obtain ⟨mid, e, w, rfl, hmid, he⟩ := hcall.returns
    have hbegin := Step.call (some v) hcall.outside
    cases mid with
    | nil =>
        obtain ⟨rfl, -⟩ := List.cons.inj hseg
        cases he
    | cons x mid =>
        obtain ⟨rfl, rfl⟩ := List.cons.inj hseg
        rw [List.forall_mem_cons] at hmid
        have hbegun : UnderWay p v tr s [.called (s.call p) (some v)]
            (s.goto s.queue p (.load (some v))) :=
          ⟨rfl, _, Function.update_self .., rfl, trivial⟩
        refine Run.until_result
          (D := fun seg m => UnderWay p v tr s (.called (s.call p) (some v) :: seg) m)
          (R := fun r seg m => Met tr s r.1 (.called (s.call p) (some v) :: seg) m)
          hbegun ?_ hrun hmid.2 he
        intro seg m e m' hpart hu hs
        have hwhole := hpart.cons hbegin
        exact hu.step (run_full_iff hP hk (h.append hwhole)) hwhole hs
  refine ⟨?_, ?_, fun p v seg s' hcall => (hmet p v seg false s' hcall).1 rfl,
    fun p v seg s' hcall => (hmet p v seg true s' hcall).2 rfl⟩
  · intro seg r s' c v hcall hget hno
    rw [hcall.eq_found]
    exact (hi.slots.front_eq hcall.outside).1 c v (by rw [hg, hpop]; exact hget) hno
  · intro seg r s' hcall hall
    have hfront := (hi.slots.front_eq hcall.outside).2 fun c v hget =>
      hall c v (by rw [← hg, ← hpop]; exact hget)
    obtain rfl : r = none := hcall.eq_found.trans hfront
    exact ⟨rfl, hcall.null⟩

/-- Two failed reservations are yet to be taken back when the queue has become empty, and for as long
a third producer is refused. -/
theorem answers_explained_empty : ∃ (tr : List (Event Nat (Fin 4))) (s : State Nat (Fin 4)),
    Run Step (State.init (new 2)) tr s ∧ delivered tr = [1, 2] ∧ undelivered tr = [] ∧
      s.undoing = 2 ∧ (∃ seg s', Enqueues 0 5 s seg false s') ∧ Answers tr s :=
  have h := Run.of_exec (step_of_move (T := Nat) (P := Fin 4))
    (show exec move (State.init (new 2))
      [.call 2 (some 3), .enqueue 2, .call 3 (some 4), .enqueue 3,
        .call 0 (some 1), .enqueue 0, .enqueue 0, .enqueue 0, .enqueue 0,
        .call 1 (some 2), .enqueue 1, .enqueue 1, .enqueue 1, .enqueue 1,
        .enqueue 2, .enqueue 3, .dequeue, .dequeue, .dequeue, .dequeue] = some _ from rfl)
  ⟨_, _, h, rfl, rfl, rfl,
    ⟨_, _, rfl, ⟨_, rfl, .single (.enqueue (p := 0) rfl)⟩, [_], _, some 5, rfl,
      List.forall_mem_singleton.mpr rfl, rfl⟩,
    answers_explained (show create 2 true true = .ok (new 2) from rfl) (by simp) h⟩

end Runs

end Shclog.MPSCQueue
