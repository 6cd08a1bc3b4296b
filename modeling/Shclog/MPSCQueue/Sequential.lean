import Shclog.MPSCQueue.Invariant
import Shclog.Lib.Fifo

/-! # `MPSCQueue` between calls

When nobody is inside a call, the queue is the list of its undelivered items: `count` is its
length, its head is in the consumer's cell. `enqueue` and `dequeue` here are the two functions read
straight through; `exec_enqueue` and `exec_dequeue` say that this is what a thread does when the
others stand still. -/

namespace Shclog.MPSCQueue

open Lib

variable {T P : Type} {k : Nat}

/-! ## Calls that run to completion -/

/-- `enqueue`, alone: its result, what the caller's `unique_ptr` holds afterwards, and the queue. -/
def enqueue (q : MPSCQueue T) : Option T → Bool × Option T × MPSCQueue T
  | none => (false, none, q)
  | some v =>
    if q.count ≥ q.max then (false, some v, q)
    else
      let cur_count := q.count
      if cur_count ≥ q.max then (false, some v, q.countAdd.countSub)
      else (true, none, q.countAdd.headAdd.store q.head v)

/-- `dequeue`, alone. -/
def dequeue (q : MPSCQueue T) : Option T × MPSCQueue T :=
  match q.buffer q.tail with
  | none => (none, q.clear)
  | some ret => (some ret, q.clear.advance.countSub)

section Exec

variable [DecidableEq P] {s : State T P} {p : P}

@[simp] theorem State.goto_goto (q q' : MPSCQueue T) (pc pc' : Enqueue T) :
    (s.goto q p pc).goto q' p pc' = s.goto q' p pc' := by
  simp [State.goto]

@[simp] theorem State.goto_leave (q q' : MPSCQueue T) (pc : Enqueue T) :
    (s.goto q p pc).leave q' p = s.leave q' p := by
  simp [State.goto, State.leave]

@[simp] theorem State.goto_call (q : MPSCQueue T) (pc : Enqueue T) (r : P) :
    (s.goto q p pc).call r = s.call r := rfl

/-- A producer that moves alone, from its call to its return, does what `enqueue` says. -/
theorem exec_enqueue (hp : s.enq p = none) (v : Option T) :
    ∃ n tr, exec move s (.call p v :: List.replicate n (.enqueue p)) =
        some (tr, s.leave (enqueue s.queue v).2.2 p) ∧
      tr.getLast? = some (.returned (s.call p) (enqueue s.queue v).1 (enqueue s.queue v).2.1) ∧
      tr.filterMap Event.logOp? =
        if (enqueue s.queue v).1 then v.toList.map fun x => .push (s.call p, x) else [] := by
  cases v with
  | none => exact ⟨1, _, by simp [exec, move, hp, enqueueStep, enqueue]; rfl, rfl, rfl⟩
  | some v =>
      by_cases hfull : s.queue.count ≥ s.queue.max
      · refine ⟨1, [.called (s.call p) (some v), .returned (s.call p) false (some v)], ?_, ?_, ?_⟩
        · simp [exec, move, hp, enqueueStep, enqueue, hfull]
        · simp [enqueue, hfull]
        · simp [enqueue, hfull, Event.logOp?]
      · -- the reservation finds the count that the early load found
        have hlt : ¬ s.queue.max ≤ s.queue.count := hfull
        have hadd : s.queue.countAdd.head = s.queue.head := rfl
        refine ⟨4, [.called (s.call p) (some v), .loaded (s.call p), .reserved (s.call p) true,
          .ticket (s.call p) v, .returned (s.call p) true none], ?_, ?_, ?_⟩
        · simp [exec, List.replicate, move, hp, enqueueStep, enqueue, hlt, hadd]
        · simp [enqueue, hlt]
        · simp only [enqueue, hlt, if_false, if_true]
          rfl

/-- So does the consumer, in one move or two. -/
theorem exec_dequeue (hd : s.deq = none) :
    ∃ n tr, exec move s (List.replicate n .dequeue) =
        some (tr, { s with queue := (dequeue s.queue).2 }) ∧
      tr.filterMap Event.result? = [(dequeue s.queue).1] ∧
      tr.filterMap Event.logOp? = (dequeue s.queue).1.toList.map .pop := by
  cases hret : s.queue.buffer s.queue.tail with
  | none =>
      refine ⟨1, [.dequeued none], ?_, ?_, ?_⟩
      · simp [exec, move, dequeueStep, dequeue, hd, hret]
      · simp [dequeue, hret, Event.result?]
      · simp [dequeue, hret, Event.logOp?]
  | some ret =>
      refine ⟨2, [.taken, .dequeued (some ret)], ?_, ?_, ?_⟩
      · simp [exec, List.replicate, move, dequeueStep, dequeue, hd, hret]
      · simp only [dequeue, hret]
        rfl
      · simp only [dequeue, hret]
        rfl

end Exec

/-! ## The queue as the list of what is in it -/

variable [Fintype P] {s : State T P} {g : Log (Call P × T)}

theorem Ledger.quiet (hl : Ledger k s g) (hq : s.Quiescent) :
    s.queue.count = BitVec.ofNat 64 g.pending.length ∧ g.pending.length ≤ 2 ^ k := by
  have hticket : tally s.enq isTicket = 0 := tally_eq_zero fun p => by rw [hq.1 p]; rfl
  have hundo : tally s.enq isUndo = 0 := tally_eq_zero fun p => by rw [hq.1 p]; rfl
  have hcount := hl.count
  have hroom := hl.room
  rw [State.reserved, hticket, Nat.add_zero, ← Log.length_pending] at hcount hroom
  rw [hundo, Nat.add_zero] at hcount
  exact ⟨hcount, hroom⟩

omit [Fintype P] in
/-- What the consumer finds in its cell is the oldest item. -/
theorem Slots.quiet_front (hi : Slots k s g) (hq : s.Quiescent) :
    s.queue.buffer s.queue.tail = (g.pending.map Prod.snd).head? := by
  have htaken : s.taken g = g.popped := by simp [State.taken, hq.2]
  rw [hi.tail, htaken, List.head?_map, List.head?_eq_getElem?, Log.getElem?_pending, Nat.add_zero]
  cases hget : g.pushed[g.popped]? with
  | none =>
      have hlen := List.getElem?_eq_none_iff.mp hget
      exact hi.empty _ hlen (by rw [htaken]; exact Nat.lt_add_of_pos_right (Nat.two_pow_pos k))
  | some a =>
      obtain ⟨c, v⟩ := a
      rcases hi.cell _ c v (Nat.le_of_eq htaken) hget with ⟨⟨-, hs⟩, -⟩ | ⟨-, hcell⟩
      · rw [hq.1 c.1] at hs
        cases hs
      · exact hcell

/-- A lone `enqueue` of an item is refused exactly when the queue holds as much as it can. -/
theorem Ledger.enqueue_refused_iff (hl : Ledger k s g) (hq : s.Quiescent) (hk : k < 64) (v : T) :
    (enqueue s.queue (some v)).1 = false ↔ g.pending.length = 2 ^ k := by
  obtain ⟨hcount, hroom⟩ := hl.quiet hq
  have hlt : 2 ^ k < 2 ^ 64 := Nat.pow_lt_pow_right (by omega) hk
  have hfull : s.queue.count ≥ s.queue.max ↔ g.pending.length = 2 ^ k := by
    rw [hcount, hl.max, ge_iff_le, BitVec.le_def, BitVec.toNat_ofNat, BitVec.toNat_ofNat,
      Nat.mod_eq_of_lt hlt, Nat.mod_eq_of_lt (by omega)]
    omega
  rw [← hfull, enqueue]
  by_cases hc : s.queue.count ≥ s.queue.max
  · simp [hc]
  · simp [hc]

omit [Fintype P] in
/-- A call that is refused, alone, leaves the queue and the caller's item as they were. -/
theorem enqueue_refused {q : MPSCQueue T} {v : Option T} (h : (enqueue q v).1 = false) :
    enqueue q v = (false, v, q) := by
  cases v with
  | none => rfl
  | some v =>
      by_cases hc : q.count ≥ q.max
      · simp [enqueue, hc]
      · simp [enqueue, hc] at h

variable [DecidableEq P]

/-- A lone `enqueue` that is accepted appends its item. -/
theorem Inv.enqueue (hi : Inv k s g) (hfit : 2 ^ k + Fintype.card P < 2 ^ 64) (hk : k ≤ 64) {p : P}
    (hp : s.enq p = none) {v : T} (h : (enqueue s.queue (some v)).1 = true) :
    Inv k (s.leave (MPSCQueue.enqueue s.queue (some v)).2.2 p) (g.push (s.call p, v)) := by
  obtain ⟨n, tr, hexec, -, hlog⟩ := exec_enqueue hp (some v)
  obtain ⟨g', hrun, hi'⟩ := (Run.of_exec step_of_move hexec).simulate hi fun _ _ _ _ hi hs =>
    step_inv hfit hk hi hs
  rw [hlog, if_pos h] at hrun
  cases Run.single_iff.mp hrun
  exact hi'

/-- A lone `dequeue` returns the oldest item, or null when there is none, and removes it. -/
theorem Inv.dequeue (hi : Inv k s g) (hfit : 2 ^ k + Fintype.card P < 2 ^ 64) (hk : k ≤ 64)
    (hq : s.Quiescent) :
    (MPSCQueue.dequeue s.queue).1 = (g.pending.map Prod.snd).head? ∧
      ∃ g', Inv k { s with queue := (MPSCQueue.dequeue s.queue).2 } g' ∧
        g'.pending = g.pending.tail := by
  have hret : (MPSCQueue.dequeue s.queue).1 = (g.pending.map Prod.snd).head? := by
    rw [← hi.slots.quiet_front hq, MPSCQueue.dequeue]
    cases s.queue.buffer s.queue.tail <;> rfl
  refine ⟨hret, ?_⟩
  obtain ⟨n, tr, hexec, -, hlog⟩ := exec_dequeue hq.2
  obtain ⟨g', hrun, hi'⟩ := (Run.of_exec step_of_move hexec).simulate hi fun _ _ _ _ hi hs =>
    step_inv hfit hk hi hs
  refine ⟨g', hi', ?_⟩
  rw [hlog, hret] at hrun
  rcases Nat.lt_or_ge g.popped g.pushed.length with hlt | hge
  · rw [g.pending_cons hlt] at hrun ⊢
    cases Run.single_iff.mp hrun
    rfl
  · have hnil : g.pending = [] := g.pending_eq_nil_iff.mpr (Nat.le_antisymm hge g.popped_le)
    rw [hnil] at hrun ⊢
    rw [Run.nil_iff.mp hrun]
    exact hnil

/-- Calling `dequeue` again and again, as the destructor does, returns everything that is in the
queue before it first returns null. -/
theorem Inv.drain (hi : Inv k s g) (hfit : 2 ^ k + Fintype.card P < 2 ^ 64) (hk : k ≤ 64)
    (hq : s.Quiescent) :
    ∃ n tr s', exec move s (List.replicate n .dequeue) = some (tr, s') ∧
      tr.filterMap Event.result? = (g.pending.map Prod.snd).map some ++ [none] := by
  generalize hl : g.pending = l
  induction l generalizing s g with
  | nil =>
      obtain ⟨hret, -⟩ := hi.dequeue hfit hk hq
      obtain ⟨n, tr, hexec, hres, -⟩ := exec_dequeue hq.2
      refine ⟨n, tr, _, hexec, ?_⟩
      rw [hres, hret, hl]
      rfl
  | cons a l ih =>
      obtain ⟨hret, g', hi', hg'⟩ := hi.dequeue hfit hk hq
      obtain ⟨n₁, tr₁, hexec₁, hres₁, -⟩ := exec_dequeue hq.2
      obtain ⟨n₂, tr₂, s', hexec₂, hres₂⟩ := ih hi' ⟨hq.1, hq.2⟩ (by rw [hg', hl]; rfl)
      refine ⟨n₁ + n₂, tr₁ ++ tr₂, s', ?_, ?_⟩
      · rw [← List.replicate_append_replicate]
        exact exec_append hexec₁ hexec₂
      · rw [List.filterMap_append, hres₁, hres₂, hret, hl]
        rfl

/-! ## Sequential use -/

/-- The queue in the hands of one thread. -/
def asFifo : FifoImpl (MPSCQueue T) T where
  put q x := some ((MPSCQueue.enqueue q (some x)).1, (MPSCQueue.enqueue q (some x)).2.2)
  take q := some (MPSCQueue.dequeue q)

/-- Between calls, the queue `q` of `2 ^ k` cells holds the list `l`. -/
def Holds (k : Nat) (q : MPSCQueue T) (l : List T) : Prop :=
  ∃ (s : State T Unit) (g : Log (Call Unit × T)), s.queue = q ∧ s.Quiescent ∧ Inv k s g ∧
    g.pending.map Prod.snd = l

theorem holds_new : Holds k (new (BitVec.ofNat 64 (2 ^ k)) : MPSCQueue T) [] :=
  ⟨State.init (new _), Log.empty, rfl, ⟨fun _ => rfl, rfl⟩, init_inv _ rfl, rfl⟩

theorem Holds.put {q : MPSCQueue T} {l : List T} (h : Holds k q l) (hk : k < 64)
    (hlen : l.length < 2 ^ k) (x : T) :
    ∃ q', asFifo.put q x = some (true, q') ∧ Holds k q' (l ++ [x]) := by
  obtain ⟨s, g, rfl, hq, hi, rfl⟩ := h
  have haccepted : (MPSCQueue.enqueue s.queue (some x)).1 = true := by
    cases hb : (MPSCQueue.enqueue s.queue (some x)).1 with
    | true => rfl
    | false =>
        rw [hi.ledger.enqueue_refused_iff hq hk x] at hb
        rw [List.length_map, hb] at hlen
        exact absurd hlen (Nat.lt_irrefl _)
  refine ⟨(MPSCQueue.enqueue s.queue (some x)).2.2, ?_, ?_⟩
  · show some (_, _) = _
    rw [haccepted]
  refine ⟨s.leave (MPSCQueue.enqueue s.queue (some x)).2.2 (), g.push (s.call (), x), rfl, ?_, ?_, ?_⟩
  · exact ⟨fun p => by rw [State.leave_enq, Function.update_self], hq.2⟩
  · exact hi.enqueue (Usize.lap_fits hk (by simp)) (Nat.le_of_lt hk) (hq.1 ()) haccepted
  · rw [Log.pending_push, List.map_append]
    rfl

theorem Holds.take {q : MPSCQueue T} {l : List T} (h : Holds k q l) (hk : k < 64) :
    ∃ q', asFifo.take q = some (l.head?, q') ∧ Holds k q' l.tail := by
  obtain ⟨s, g, rfl, hq, hi, rfl⟩ := h
  obtain ⟨hret, g', hi', hg'⟩ := hi.dequeue (Usize.lap_fits hk (by simp)) (Nat.le_of_lt hk) hq
  refine ⟨(MPSCQueue.dequeue s.queue).2, ?_, ?_⟩
  · rw [← hret]
    rfl
  · refine ⟨{ s with queue := (MPSCQueue.dequeue s.queue).2 }, g', rfl, ⟨hq.1, hq.2⟩, hi', ?_⟩
    rw [hg', List.map_tail]

end Shclog.MPSCQueue
