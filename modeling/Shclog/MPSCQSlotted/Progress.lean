import Shclog.MPSCQSlotted.Delivery
import Shclog.Lib.Tally

/-! # `MPSCQSlotted` comes to an end

Producers spin and the consumer comes back with null, so there are runs that get nowhere. What is
left to be done is a number all the same: a step that is not a turn of a spin loop or a null takes
one off it, and there is such a step until it is zero. -/

namespace Shclog.MPSCQSlotted

open Lib

variable {T P : Type} {k : Nat} {N : Usize} {tr seg : List (Event T P)} {e : Event T P}
  {s s' : State T P}

/-! ## What is left to be done -/

/-- How many steps are left to a producer's call, and to the consumer for the item that it is yet to
get a ticket for. -/
def Enqueue.work : Option (Enqueue T) → Nat
  | none => 0
  | some (.ticket _) => 7
  | some (.spin _ _) => 3
  | some (.write _ _) => 2
  | some (.publish _ _) => 1

/-- How many steps the consumer has made for the item it is about to return. -/
def Dequeue.made : Option (Dequeue T) → Nat
  | none => 0
  | some .read => 1
  | some (.release _) => 2

/-- How many steps are left until nobody is inside a call and nothing is left in the queue, if no
more calls of `enqueue` are made. -/
def work [Fintype P] (tr : List (Event T P)) (s : State T P) : Nat :=
  load s.enq Enqueue.work + 3 * ((tickets tr).length - (dequeued tr).length) - Dequeue.made s.deq

/-- A turn of the spin loop, or a null. -/
def Event.idle : Event T P → Bool
  | .waited _ | .empty => true
  | _ => false

theorem Enqueue.work_eq_zero {pc : Option (Enqueue T)} : Enqueue.work pc = 0 ↔ pc = none := by
  cases pc with
  | none => simp [Enqueue.work]
  | some pc => cases pc <;> simp [Enqueue.work]

/-- The consumer inside `dequeue` has found the oldest item published. -/
theorem Inv.made_le {g : Log (Call P × Option T)} (hi : Inv k s g) :
    Dequeue.made s.deq ≤ 3 * (g.pushed.length - g.popped) ∧
      (s.deq ≠ none → g.popped < g.pushed.length) := by
  have hlt : s.deq ≠ none → g.popped < g.pushed.length := by
    intro hne
    cases hd : s.deq with
    | none => exact absurd hd hne
    | some pc =>
        cases pc with
        | read =>
            obtain ⟨c, v, hget, -⟩ := hi.read hd
            exact (List.getElem?_eq_some_iff.mp hget).1
        | release v =>
            obtain ⟨c, hget, -⟩ := hi.release v hd
            exact (List.getElem?_eq_some_iff.mp hget).1
  refine ⟨?_, hlt⟩
  cases hd : s.deq with
  | none => exact Nat.zero_le _
  | some pc =>
      have := hlt (by rw [hd]; exact Option.some_ne_none _)
      cases pc <;> simp only [Dequeue.made] <;> omega

section Steps

variable [DecidableEq P]

/-- A step that is idle changes nothing. -/
theorem step_idle (h : Step N s e s') (he : e.idle) : s' = s := by
  cases h with
  | call v hp => cases he
  | enqueue hp =>
      rename_i p pc
      cases pc with
      | spin v pos =>
          rw [enqueueStep] at he ⊢
          split at he
          · cases he
          · next hdif => rw [if_neg hdif]
      | _ => cases he
  | dequeue =>
      unfold dequeueStep at he ⊢
      cases hd : s.deq with
      | none =>
          rw [hd] at he
          dsimp only at he ⊢
          split at he
          · next hdif => rw [if_pos hdif]
          · cases he
      | some pc =>
          rw [hd] at he
          cases pc <;> cases he

variable [Fintype P]

/-- What a producer's step leaves to do, with what its ticket adds for the consumer. -/
theorem enqueueStep_work {p : P} {pc : Enqueue T} (hp : s.enq p = some pc) :
    load (enqueueStep N s p pc).2.enq Enqueue.work +
        3 * ((enqueueStep N s p pc).1.ticket?.isSome.toNat) +
        (!(enqueueStep N s p pc).1.idle).toNat = load s.enq Enqueue.work ∧
      (enqueueStep N s p pc).2.deq = s.deq ∧ (enqueueStep N s p pc).1.dequeued? = none := by
  have hgoto := fun pc' => load_update s.enq Enqueue.work p (some pc')
  have hleave := load_update s.enq Enqueue.work p none
  rw [hp] at hleave
  simp only [hp] at hgoto
  cases pc with
  | ticket v =>
      have h := hgoto (.spin v s.queue.head)
      refine ⟨?_, rfl, rfl⟩
      show load (Function.update s.enq p _) _ + 3 * 1 + 1 = _
      simp only [Enqueue.work] at h
      omega
  | spin v pos =>
      rw [enqueueStep]
      split
      · have h := hgoto (.write v pos)
        refine ⟨?_, rfl, rfl⟩
        show load (Function.update s.enq p _) _ + 0 + 1 = _
        simp only [Enqueue.work] at h
        omega
      · exact ⟨rfl, rfl, rfl⟩
  | write v pos =>
      have h := hgoto (.publish v pos)
      refine ⟨?_, rfl, rfl⟩
      show load (Function.update s.enq p _) _ + 0 + 1 = _
      simp only [Enqueue.work] at h
      omega
  | publish v pos =>
      refine ⟨?_, rfl, rfl⟩
      show load (Function.update s.enq p _) _ + 0 + 1 = _
      simp only [Enqueue.work] at hleave
      omega

omit [DecidableEq P] [Fintype P] in
/-- What a step of the consumer adds to what it has made. -/
theorem dequeueStep_work :
    Dequeue.made (dequeueStep N s).2.deq + 3 * (dequeueStep N s).1.dequeued?.isSome.toNat =
      Dequeue.made s.deq + (!(dequeueStep N s).1.idle).toNat := by
  unfold dequeueStep
  cases hd : s.deq with
  | none =>
      dsimp only
      split
      · rw [hd]
        rfl
      · rfl
  | some pc => cases pc <;> rfl

omit [DecidableEq P] [Fintype P] in
theorem length_tickets_snoc (tr : List (Event T P)) (e : Event T P) :
    (tickets (tr ++ [e])).length = (tickets tr).length + e.ticket?.isSome.toNat := by
  rw [tickets, Run.filterMap_snoc, List.length_append]
  cases e.ticket? <;> rfl

omit [DecidableEq P] [Fintype P] in
theorem length_dequeued_snoc (tr : List (Event T P)) (e : Event T P) :
    (dequeued (tr ++ [e])).length = (dequeued tr).length + e.dequeued?.isSome.toNat := by
  rw [dequeued, Run.filterMap_snoc, List.length_append]
  cases e.dequeued? <;> rfl

/-- **One step**: unless it is idle, a step of a call takes one off what is left to be done. -/
theorem step_work (hfit : 2 ^ k + Fintype.card P < 2 ^ 64) (hk : k < 64) (hk1 : 1 ≤ k)
    (hrun : Run (Step (BitVec.ofNat 64 (2 ^ k))) (State.init (new (BitVec.ofNat 64 (2 ^ k)))) tr s)
    (h : Step (BitVec.ofNat 64 (2 ^ k)) s e s') (he : e.called? = none) :
    work (tr ++ [e]) s' + (!e.idle).toNat = work tr s := by
  obtain ⟨g, hi, hg, hpop, -⟩ := run_inv hfit hk hk1 hrun
  obtain ⟨g', hi', hg', hpop', -⟩ := run_inv hfit hk hk1 (hrun.snoc h)
  obtain ⟨hmade, -⟩ := hi.made_le
  obtain ⟨hmade', -⟩ := hi'.made_le
  have hle := g.popped_le
  have hle' := g'.popped_le
  rw [hg, hpop] at hmade hle
  rw [hg', hpop'] at hmade' hle'
  have htick := length_tickets_snoc tr e
  have hdeq := length_dequeued_snoc tr e
  unfold work
  cases h with
  | call v hp => cases he
  | enqueue hp =>
      obtain ⟨hload, hsame, hnone⟩ := enqueueStep_work (N := BitVec.ofNat 64 (2 ^ k)) hp
      rw [hsame] at hmade' ⊢
      rw [hnone] at hdeq
      simp only [Option.isSome_none, Bool.toNat_false] at hdeq
      omega
  | dequeue =>
      obtain ⟨henq, -, -, hticket, -⟩ := dequeueStep_frame (BitVec.ofNat 64 (2 ^ k)) s
      have hstep := dequeueStep_work (N := BitVec.ofNat 64 (2 ^ k)) (s := s)
      rw [hticket] at htick
      simp only [Option.isSome_none, Bool.toNat_false] at htick
      rw [henq]
      omega

/-! ## Who can make a step -/

/-- The producer of the oldest ticket never waits. -/
theorem Inv.oldest_step (hfit : 2 ^ k + Fintype.card P < 2 ^ 64) (hk : k < 64) (hk1 : 1 ≤ k)
    {g : Log (Call P × Option T)} (hi : Inv k s g) (hlt : g.popped < g.pushed.length)
    (hno : ¬ s.Published g g.popped) :
    ∃ e s', Step (BitVec.ofNat 64 (2 ^ k)) s e s' ∧ e.called? = none ∧ e.idle = false := by
  obtain ⟨⟨c, v⟩, hget⟩ : ∃ a, g.pushed[g.popped]? = some a :=
    ⟨_, List.getElem?_eq_getElem hlt⟩
  have hflight : s.InFlight c := by
    by_contra hc
    exact hno ⟨c, v, hget, hc⟩
  obtain ⟨hcalls, hmark⟩ := hflight
  cases hp : s.enq c.1 with
  | none =>
      rw [hp] at hmark
      cases hmark
  | some pc =>
      have hstep := Step.enqueue (N := BitVec.ofNat 64 (2 ^ k)) hp
      cases pc with
      | ticket w =>
          rw [hp] at hmark
          cases hmark
      | spin w pos =>
          obtain ⟨i, hpop, hgeti, rfl, -⟩ := hi.entry c.1 w pos (by rw [hp]; rfl)
          have hcall : s.call c.1 = c := Prod.ext rfl hcalls.symm
          have hidx : i = g.popped := hi.index_inj (hcall ▸ hgeti) hget
          have hseq := (hi.stamp_eq_iff hfit (Nat.le_of_lt hk) hk1 hp hpop hgeti).mpr
            (by have := Nat.two_pow_pos k; omega)
          refine ⟨_, _, hstep, ?_⟩
          rw [enqueueStep, slot_eq]
          rw [if_pos (by rw [hseq, BitVec.sub_self]; rfl)]
          exact ⟨rfl, rfl⟩
      | write w pos => exact ⟨_, _, hstep, rfl, rfl⟩
      | publish w pos => exact ⟨_, _, hstep, rfl, rfl⟩

omit [DecidableEq P] [Fintype P] in
/-- The consumer goes on if it is inside a call, or the oldest item is published. -/
theorem Inv.consumer_step {g : Log (Call P × Option T)} (hi : Inv k s g)
    (h : s.deq ≠ none ∨ s.Published g g.popped) :
    (dequeueStep (BitVec.ofNat 64 (2 ^ k)) s).1.idle = false := by
  have hslot : s.queue.tail &&& mask (BitVec.ofNat 64 (2 ^ k)) = slot 64 k g.popped := by
    rw [hi.tail, slot_eq]
  rw [dequeueStep, hslot]
  cases hd : s.deq with
  | none =>
      have hpub := h.resolve_left (fun hne => hne hd)
      dsimp only
      rw [if_neg fun hneg => hi.probe.mp hneg hpub]
      rfl
  | some pc => cases pc <;> rfl

/-- Nobody has to wait unless somebody else has something to do. -/
theorem Inv.exists_step (hfit : 2 ^ k + Fintype.card P < 2 ^ 64) (hk : k < 64) (hk1 : 1 ≤ k)
    {g : Log (Call P × Option T)} (hi : Inv k s g)
    (h : ¬ s.Quiescent ∨ g.popped < g.pushed.length) :
    ∃ e s', Step (BitVec.ofNat 64 (2 ^ k)) s e s' ∧ e.called? = none ∧ e.idle = false := by
  by_cases hcons : s.deq ≠ none ∨ s.Published g g.popped
  · exact ⟨_, _, .dequeue s, (dequeueStep_frame _ s).2.2.1, hi.consumer_step hcons⟩
  · obtain ⟨hd, hno⟩ := not_or.mp hcons
    by_cases hlt : g.popped < g.pushed.length
    · exact hi.oldest_step hfit hk hk1 hlt hno
    · obtain ⟨p, hp⟩ : ∃ p, s.enq p ≠ none := by
        by_contra hnone
        refine (h.resolve_right hlt) ⟨fun p => ?_, not_not.mp hd⟩
        by_contra hp
        exact hnone ⟨p, hp⟩
      cases hpc : s.enq p with
      | none => exact absurd hpc hp
      | some pc =>
          have hstep := Step.enqueue (N := BitVec.ofNat 64 (2 ^ k)) hpc
          -- a producer with a ticket would be in the log
          have hempty : ∀ v pos, pc.entry? ≠ some (v, pos) := by
            intro v pos he
            obtain ⟨i, hpop, hget, -⟩ := hi.entry p v pos (by rw [hpc]; exact he)
            have := (List.getElem?_eq_some_iff.mp hget).1
            omega
          cases pc with
          | ticket v => exact ⟨_, _, hstep, rfl, rfl⟩
          | spin v pos => exact absurd rfl (hempty v pos)
          | write v pos => exact ⟨_, _, hstep, rfl, rfl⟩
          | publish v pos => exact ⟨_, _, hstep, rfl, rfl⟩

/-! ## The theorem -/

/-- How what has been begun comes to an end, from the state `s` that the run `tr` leads to. -/
structure Settles (N : Usize) (tr : List (Event T P)) (s : State T P) : Prop where
  /-- a turn of the spin loop, or a null, changes nothing -/
  idle : ∀ e s', Step N s e s' → e.idle → s' = s
  /-- each other step of a call takes one off what is left to be done, whoever makes it -/
  nearer : ∀ seg s', Run (Step N) s seg s' → (∀ e ∈ seg, e.called? = none) →
    work (tr ++ seg) s' + seg.countP (fun e => !e.idle) = work tr s
  /-- as long as something is left, somebody can make such a step -/
  unstuck : work tr s ≠ 0 → ∃ e s', Step N s e s' ∧ e.called? = none ∧ e.idle = false
  /-- nothing is left when all calls have returned and all that was put in has been taken out -/
  ends : work tr s = 0 ↔ s.Quiescent ∧ dequeued tr = (tickets tr).map Prod.snd

/-- **`MPSCQSlotted` neither deadlocks nor goes round in circles**, although its producers spin: any
producers, any interleaving. -/
theorem settles (hN : 2 ≤ N.toNat) (hpow : N.toNat.isPowerOfTwo)
    (hP : N.toNat + Fintype.card P < 2 ^ 64) (h : Run (Step N) (State.init (new N)) tr s) :
    Settles N tr s := by
  obtain ⟨k, hk1, hk64, rfl⟩ := Usize.exists_of_isPowerOfTwo hN hpow
  rw [Usize.toNat_two_pow hk64] at hP
  obtain ⟨g, hi, hg, hpop, hdel⟩ := run_inv hP hk64 hk1 h
  obtain ⟨hmade, hfound⟩ := hi.made_le
  have hle := g.popped_le
  have hends : work tr s = 0 ↔ s.Quiescent ∧ ¬ g.popped < g.pushed.length := by
    unfold work
    rw [← hg, ← hpop]
    constructor
    · intro hzero
      have hload : load s.enq Enqueue.work = 0 := by omega
      have hlen : ¬ g.popped < g.pushed.length := by
        intro hlt
        cases hd : s.deq with
        | none =>
            rw [hd] at hzero
            simp only [Dequeue.made] at hzero
            omega
        | some pc =>
            rw [hd] at hzero
            cases pc <;> simp only [Dequeue.made] at hzero <;> omega
      refine ⟨⟨fun p => Enqueue.work_eq_zero.mp (load_eq_zero_iff.mp hload p), ?_⟩, hlen⟩
      by_contra hne
      exact hlen (hfound hne)
    · rintro ⟨⟨henq, -⟩, hlt⟩
      have hload : load s.enq Enqueue.work = 0 := by
        rw [load_eq_zero_iff]
        intro p
        rw [henq p]
        rfl
      omega
  refine ⟨fun e s' hs he => step_idle hs he, ?_, ?_, ?_⟩
  · intro seg s' hrun hseg
    refine hrun.invariant (I := fun seg m => (∀ e ∈ seg, e.called? = none) →
      work (tr ++ seg) m + seg.countP (fun e => !e.idle) = work tr s) ?_ ?_ hseg
    · intro _
      rw [List.append_nil]
      rfl
    · intro seg m e m' hrun ih hs hall
      rw [List.forall_mem_append, List.forall_mem_singleton] at hall
      have hstep := step_work hP hk64 hk1 (h.append hrun) hs hall.2
      have hcount : (seg ++ [e]).countP (fun e => !e.idle) =
          seg.countP (fun e => !e.idle) + (!e.idle).toNat := by
        rw [List.countP_append, List.countP_singleton]
        cases e.idle <;> rfl
      have := ih hall.1
      rw [← List.append_assoc]
      omega
  · intro hne
    apply hi.exists_step hP hk64 hk1
    rw [Ne, hends, not_and_or, not_not] at hne
    exact hne
  · rw [hends, hdel, hg, hpop]
    apply and_congr_right
    intro _
    constructor
    · intro hge
      rw [List.take_of_length_le (by omega)]
    · intro hall hlt
      have := congrArg List.length hall
      rw [List.length_map, List.length_map, List.length_take] at this
      omega

/-- Two producers have tickets for one cell, and the second has to wait for the first item to be
taken out of it. -/
theorem settles_lap : ∃ (tr : List (Event Nat (Fin 3))) (s : State Nat (Fin 3)),
    Run (Step 2) (State.init (new 2)) tr s ∧ work tr s = 17 ∧ Settles 2 tr s :=
  have h := Run.of_exec (step_of_move (T := Nat) (P := Fin 3) 2)
    (show exec (move 2) (State.init (new 2))
      [.call 0 (some 5), .call 1 (some 6), .call 2 (some 7), .enqueue 0, .enqueue 1, .enqueue 2,
        .enqueue 2, .enqueue 0, .enqueue 2, .dequeue] = some _ from rfl)
  ⟨_, _, h, rfl, settles (by decide) ⟨1, rfl⟩ (by simp) h⟩

/-! ## What `dequeue` answers -/

omit [Fintype P] in
/-- A call of `dequeue`, from its first operation to the one with which it returns `r`, and whatever
the others do in between. -/
structure Dequeues (N : Usize) (s : State T P) (seg : List (Event T P)) (r : Option T)
    (s' : State T P) : Prop where
  outside : s.deq = none
  begins : ∃ rest, seg = (dequeueStep N s).1 :: rest ∧ Run (Step N) (dequeueStep N s).2 rest s'
  returns : ∃ mid e, seg = mid ++ [e] ∧ (∀ x ∈ mid, x.result? = none) ∧ e.result? = some r

omit [Fintype P] in
theorem Dequeues.run {r : Option T} (h : Dequeues N s seg r s') : Run (Step N) s seg s' := by
  obtain ⟨rest, rfl, hrun⟩ := h.begins
  exact .cons (.dequeue s) hrun

omit [Fintype P] in
/-- The consumer stays inside its call until it takes something out. -/
theorem step_inside (hd : s.deq ≠ none) (h : Step N s e s') :
    (e.result? = none ∧ s'.deq ≠ none) ∨ ∃ r, e.result? = some r ∧ e = .dequeued r := by
  cases h with
  | call v hp => exact .inl ⟨rfl, hd⟩
  | enqueue hp =>
      rename_i p pc
      left
      cases pc with
      | spin v pos =>
          rw [enqueueStep]
          split
          · exact ⟨rfl, hd⟩
          · exact ⟨rfl, hd⟩
      | _ => exact ⟨rfl, hd⟩
  | dequeue =>
      unfold dequeueStep
      cases hdeq : s.deq with
      | none => exact absurd hdeq hd
      | some pc =>
          cases pc with
          | read => exact .inl ⟨rfl, Option.some_ne_none _⟩
          | release v => exact .inr ⟨v, rfl, rfl⟩

omit [Fintype P] in
/-- A call that does not come back with null at once takes out what it returns, and nothing has been
taken out before that. -/
theorem Dequeues.takes {r : Option T} (h : Dequeues N s seg r s')
    (hinside : (dequeueStep N s).2.deq ≠ none) (hres : (dequeueStep N s).1.result? = none) :
    dequeued seg = [r] := by
  obtain ⟨rest, hseg, hrun⟩ := h.begins
  obtain ⟨mid, e, rfl, hmid, he⟩ := h.returns
  have hnone : dequeued mid = [] := by
    rw [dequeued, List.filterMap_eq_nil_iff]
    intro x hx
    have := hmid x hx
    cases x <;> first | rfl | cases this
  cases mid with
  | nil =>
      obtain ⟨rfl, -⟩ := List.cons.inj hseg
      rw [hres] at he
      cases he
  | cons x mid =>
      obtain ⟨rfl, rfl⟩ := List.cons.inj hseg
      rw [List.forall_mem_cons] at hmid
      have hlast : (mid ++ [e]).getLast? = some (.dequeued r) := by
        refine hrun.until_result (D := fun _ m => m.deq ≠ none)
          (R := fun r seg _ => seg.getLast? = some (.dequeued r)) hinside ?_ hmid.2 he
        intro seg m e m' _ hd hs
        refine (step_inside hd hs).imp_right ?_
        rintro ⟨r, hr, rfl⟩
        exact ⟨r, hr, List.getLast?_concat⟩
      rw [List.getLast?_concat, Option.some_inj] at hlast
      subst hlast
      rw [dequeued, Run.filterMap_snoc, ← dequeued, hnone]
      rfl

/-- What a call of `dequeue` made in the state `s` returns, whatever happens while it goes on. -/
structure Answers (N : Usize) (tr : List (Event T P)) (s : State T P) : Prop where
  /-- the oldest item, if that is published when the call begins -/
  oldest : ∀ seg r s' c v, Dequeues N s seg r s' →
    (tickets tr)[(dequeued tr).length]? = some (c, v) → ¬ s.InFlight c → r = v
  /-- and otherwise null, at once and without a trace -/
  null : ∀ seg r s', Dequeues N s seg r s' →
    (∀ c v, (tickets tr)[(dequeued tr).length]? = some (c, v) → s.InFlight c) →
    seg = [.empty] ∧ r = none ∧ s' = s

/-- **What `dequeue` returns is decided when it begins**: the oldest item, unless its producer has
not published it yet. -/
theorem answers (hN : 2 ≤ N.toNat) (hpow : N.toNat.isPowerOfTwo)
    (hP : N.toNat + Fintype.card P < 2 ^ 64) (h : Run (Step N) (State.init (new N)) tr s) :
    Answers N tr s := by
  obtain ⟨k, hk1, hk64, rfl⟩ := Usize.exists_of_isPowerOfTwo hN hpow
  rw [Usize.toNat_two_pow hk64] at hP
  obtain ⟨g, hi, hg, hpop, hdel⟩ := run_inv hP hk64 hk1 h
  refine ⟨?_, ?_⟩
  · intro seg r s' c v hcall hget hno
    have hidle := hi.consumer_step (.inr ⟨c, v, by rw [hg, hpop]; exact hget, hno⟩)
    have hfirst : (dequeueStep (BitVec.ofNat 64 (2 ^ k)) s).2.deq ≠ none ∧
        (dequeueStep (BitVec.ofNat 64 (2 ^ k)) s).1.result? = none := by
      have hd := hcall.outside
      unfold dequeueStep at hidle ⊢
      rw [hd] at hidle ⊢
      dsimp only at hidle ⊢
      split at hidle
      · cases hidle
      · next hdif =>
          rw [if_neg hdif]
          exact ⟨Option.some_ne_none _, rfl⟩
    have htaken : dequeued (tr ++ seg) = dequeued tr ++ [r] := by
      rw [dequeued, List.filterMap_append, ← dequeued, ← dequeued, hcall.takes hfirst.1 hfirst.2]
    obtain ⟨g', -, -, -, hdel'⟩ := run_inv hP hk64 hk1 (h.append hcall.run)
    have hat : (dequeued (tr ++ seg))[(dequeued tr).length]? = some v := by
      have hticket : (tickets (tr ++ seg))[(dequeued tr).length]? = some (c, v) := by
        rw [tickets, List.filterMap_append, ← tickets,
          List.getElem?_append_left (List.getElem?_eq_some_iff.mp hget).1]
        exact hget
      rw [hdel', List.getElem?_map, List.getElem?_take_of_lt (by rw [htaken]; simp), hticket]
      rfl
    rw [htaken, List.getElem?_concat_length] at hat
    exact Option.some.inj hat
  · intro seg r s' hcall hall
    have hempty : dequeueStep (BitVec.ofNat 64 (2 ^ k)) s = (.empty, s) := by
      have hslot : s.queue.tail &&& mask (BitVec.ofNat 64 (2 ^ k)) = slot 64 k g.popped := by
        rw [hi.tail, slot_eq]
      rw [dequeueStep, hslot, hcall.outside]
      refine if_pos (hi.probe.mpr ?_)
      rintro ⟨c, v, hget, hno⟩
      rw [hg, hpop] at hget
      exact hno (hall c v hget)
    obtain ⟨rest, hseg, hrun⟩ := hcall.begins
    obtain ⟨mid, e, rfl, hmid, he⟩ := hcall.returns
    rw [hempty] at hseg hrun
    cases mid with
    | nil =>
        obtain ⟨rfl, rfl⟩ := List.cons.inj hseg
        cases he
        exact ⟨rfl, rfl, Run.nil_iff.mp hrun⟩
    | cons x mid =>
        obtain ⟨rfl, -⟩ := List.cons.inj hseg
        have hnone : Event.result? (Event.empty : Event T P) = none :=
          hmid _ List.mem_cons_self
        cases hnone

/-- The second of two items is in its cell already, but the first is not. -/
theorem answers_unpublished : ∃ (tr : List (Event Nat (Fin 2))) (s : State Nat (Fin 2)),
    Run (Step 2) (State.init (new 2)) tr s ∧
      (tickets tr).map Prod.snd = [some 5, some 6] ∧ s.InFlight (0, 0) ∧ ¬ s.InFlight (1, 0) ∧
      Answers 2 tr s :=
  have h := Run.of_exec (step_of_move (T := Nat) (P := Fin 2) 2)
    (show exec (move 2) (State.init (new 2))
      [.call 0 (some 5), .call 1 (some 6), .enqueue 0, .enqueue 1, .enqueue 1, .enqueue 1,
        .enqueue 1] = some _ from rfl)
  ⟨_, _, h, rfl, ⟨rfl, rfl⟩, (fun hin => by cases hin.1), answers (by decide) ⟨1, rfl⟩ (by simp) h⟩

end Steps

/-! ## Real time -/

section RealTime

variable [DecidableEq P] {tr₁ tr₂ : List (Event T P)} {c c' : Call P} {x v : Option T} {b : Bool}
  {j : Nat}

theorem begun_step (h : Step N s e s') (c : Call P) (hc : Begun s.calls s.enq c) :
    Begun s'.calls s'.enq c := by
  cases h with
  | call v hp => exact hc.goto
  | enqueue hp =>
      rename_i p pc
      cases pc with
      | spin v pos =>
          rw [enqueueStep]
          split
          · exact hc.goto
          · exact hc
      | publish v pos => exact hc.leave
      | _ => exact hc.goto
  | dequeue =>
      obtain ⟨henq, hcalls, -⟩ := dequeueStep_frame N s
      rw [henq, hcalls]
      exact hc

theorem called_new (h : Step N s e s') (c : Call P) (v : Option T)
    (he : e.called? = some (c, v)) : ¬ Begun s.calls s.enq c := by
  cases h with
  | call w hp =>
      cases he
      rintro (hlt | ⟨-, hne⟩)
      · exact Nat.lt_irrefl _ hlt
      · exact hne hp
  | enqueue hp =>
      rename_i p pc
      cases pc with
      | spin w pos =>
          rw [enqueueStep] at he
          split at he
          · cases he
          · cases he
      | _ => cases he
  | dequeue =>
      rw [(dequeueStep_frame N s).2.2.1] at he
      cases he

/-- **First come, first served**: what a call put in that had returned before another began is taken
out before what the other put in. -/
theorem in_real_time [Fintype P] (hN : 2 ≤ N.toNat) (hpow : N.toNat.isPowerOfTwo)
    (hP : N.toNat + Fintype.card P < 2 ^ 64)
    (h : Run (Step N) (State.init (new N)) (tr₁ ++ tr₂) s) (hret : .returned c b ∈ tr₁)
    (hcall : .called c' x ∈ tr₂) (hj : (tickets (tr₁ ++ tr₂))[j]? = some (c', v)) :
    ∃ i w, i < j ∧ (tickets (tr₁ ++ tr₂))[i]? = some (c, w) ∧
      (j < (dequeued (tr₁ ++ tr₂)).length →
        (dequeued (tr₁ ++ tr₂))[j]? = some v ∧ (dequeued (tr₁ ++ tr₂))[i]? = some w) := by
  have hread : dequeued (tr₁ ++ tr₂) = ((tickets (tr₁ ++ tr₂)).take
      (dequeued (tr₁ ++ tr₂)).length).map Prod.snd := by
    obtain ⟨k, hk1, hk64, rfl⟩ := Usize.exists_of_isPowerOfTwo hN hpow
    rw [Usize.toNat_two_pow hk64] at hP
    obtain ⟨g, -, -, -, hdel⟩ := run_inv hP hk64 hk1 h
    exact hdel
  obtain ⟨m, hm, hrest⟩ := h.split
  obtain ⟨i, w, hij, hi⟩ := (run_calls hm).before (U := fun s => Begun s.calls s.enq)
    (fun _ _ _ hs => begun_step hs) (fun _ _ _ hs => called_new hs) hrest
    (List.mem_filterMap.mpr ⟨_, hret, rfl⟩) (List.mem_filterMap.mpr ⟨_, hcall, rfl⟩) hj
  refine ⟨i, w, hij, hi, ?_⟩
  intro hlt
  constructor
  · rw [hread, List.getElem?_map, List.getElem?_take_of_lt hlt, hj]
    rfl
  · rw [hread, List.getElem?_map, List.getElem?_take_of_lt (hij.trans hlt)]
    exact congrArg (Option.map Prod.snd) hi

/-- The second producer begins when the first is through. -/
theorem in_real_time_two : ∃ (tr₁ tr₂ : List (Event Nat (Fin 2))) (s : State Nat (Fin 2)),
    Run (Step 2) (State.init (new 2)) (tr₁ ++ tr₂) s ∧ dequeued (tr₁ ++ tr₂) = [some 5, some 6] ∧
      ∃ i w, i < 1 ∧ (tickets (tr₁ ++ tr₂))[i]? = some ((0, 0), w) ∧
        (1 < (dequeued (tr₁ ++ tr₂)).length →
          (dequeued (tr₁ ++ tr₂))[1]? = some (some 6) ∧ (dequeued (tr₁ ++ tr₂))[i]? = some w) :=
  have h₁ := Run.of_exec (step_of_move (T := Nat) (P := Fin 2) 2)
    (show exec (move 2) (State.init (new 2))
      [.call 0 (some 5), .enqueue 0, .enqueue 0, .enqueue 0, .enqueue 0] = some _ from rfl)
  have h₂ := Run.of_exec (step_of_move (T := Nat) (P := Fin 2) 2)
    (show exec (move 2) _ [.call 1 (some 6), .enqueue 1, .enqueue 1, .enqueue 1, .enqueue 1,
      .dequeue, .dequeue, .dequeue, .dequeue, .dequeue, .dequeue] = some _ from rfl)
  ⟨_, _, _, h₁.append h₂, rfl,
    in_real_time (by decide) ⟨1, rfl⟩ (by simp) (h₁.append h₂)
      (show Event.returned (0, 0) true ∈ _ from List.mem_of_getLast? rfl)
      (show Event.called (1, 0) (some 6) ∈ _ from List.mem_of_mem_head? rfl) rfl⟩

end RealTime

end Shclog.MPSCQSlotted
