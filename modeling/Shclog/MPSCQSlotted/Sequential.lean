import Shclog.MPSCQSlotted.Invariant
import Shclog.Lib.Fifo

/-! # `MPSCQSlotted` between calls

`enqueue` and `dequeue` read straight through, for a thread that is alone: its spin either ends at
the first look or never, because nobody else is there to move the stamp. -/

namespace Shclog.MPSCQSlotted

open Lib

variable {T P : Type} {k : Nat}

/-! ## Calls that run to completion -/

/-- `enqueue`, alone; `none` if it spins for ever. -/
def enqueue (N : Usize) (q : MPSCQSlotted T) (v : Option T) : Option (Bool × MPSCQSlotted T) :=
  let pos := q.head
  let slot := pos &&& mask N
  if (q.buffer slot).seq - pos = 0 then
    some (true, (q.headAdd.setData slot v).setSeq slot (pos + 1))
  else none

/-- `dequeue`, alone. -/
def dequeue (N : Usize) (q : MPSCQSlotted T) : Option T × MPSCQSlotted T :=
  let slot := q.tail &&& mask N
  let dif := (q.buffer slot).seq - (q.tail + 1)
  if dif.toInt < 0 then (none, q)
  else ((q.buffer slot).data, (q.setSeq slot (q.tail + N)).advance)

section Exec

variable [DecidableEq P] {s : State T P} {p : P} {N : Usize}

@[simp] theorem State.goto_goto (q q' : MPSCQSlotted T) (pc pc' : Enqueue T) :
    (s.goto q p pc).goto q' p pc' = s.goto q' p pc' := by
  simp [State.goto]

@[simp] theorem State.goto_leave (q q' : MPSCQSlotted T) (pc : Enqueue T) :
    (s.goto q p pc).leave q' p = s.leave q' p := by
  simp [State.goto, State.leave]

@[simp] theorem State.goto_call (q : MPSCQSlotted T) (pc : Enqueue T) (r : P) :
    (s.goto q p pc).call r = s.call r := rfl

@[simp] theorem headAdd_buffer (q : MPSCQSlotted T) : q.headAdd.buffer = q.buffer := rfl

/-- A producer that moves alone and is not stuck does what `enqueue` says. -/
theorem exec_enqueue (hp : s.enq p = none) {v : Option T} {r : Bool × MPSCQSlotted T}
    (h : enqueue N s.queue v = some r) :
    ∃ n tr, exec (move N) s (.call p v :: List.replicate n (.enqueue p)) =
        some (tr, s.leave r.2 p) ∧
      tr.getLast? = some (.returned (s.call p) r.1) ∧
      tr.filterMap Event.logOp? = [.push (s.call p, v)] := by
  rw [enqueue] at h
  split at h
  · next hseq =>
      cases h
      refine ⟨4, [.called (s.call p) v, .ticket (s.call p) v, .passed (s.call p),
        .written (s.call p), .returned (s.call p) true], ?_, rfl, rfl⟩
      simp [exec, List.replicate, move, hp, enqueueStep, hseq]
  · cases h

/-- One that is stuck stays where it is, however often it looks. -/
theorem exec_enqueue_stuck (hp : s.enq p = none) {v : Option T} (h : enqueue N s.queue v = none)
    (n : Nat) :
    ∃ tr, exec (move N) s (.call p v :: .enqueue p :: List.replicate n (.enqueue p)) =
      some (tr, s.goto s.queue.headAdd p (.spin v s.queue.head)) := by
  have hseq : ¬ (s.queue.buffer (s.queue.head &&& mask N)).seq - s.queue.head = 0 := by
    intro hseq
    rw [enqueue, if_pos hseq] at h
    cases h
  have hwait : move N (s.goto s.queue.headAdd p (.spin v s.queue.head)) (.enqueue p) =
      some (.waited (s.call p), s.goto s.queue.headAdd p (.spin v s.queue.head)) := by
    rw [move, State.goto_enq, Function.update_self, Option.map_some, enqueueStep]
    exact congrArg some (if_neg hseq)
  have hspin : ∃ tr, exec (move N) (s.goto s.queue.headAdd p (.spin v s.queue.head))
      (List.replicate n (.enqueue p)) =
        some (tr, s.goto s.queue.headAdd p (.spin v s.queue.head)) := by
    induction n with
    | zero => exact ⟨[], rfl⟩
    | succ n ih =>
        obtain ⟨tr, htr⟩ := ih
        refine ⟨.waited (s.call p) :: tr, ?_⟩
        rw [List.replicate_succ]
        simp [exec, hwait, htr]
  obtain ⟨tr, htr⟩ := hspin
  refine ⟨.called (s.call p) v :: .ticket (s.call p) v :: tr, ?_⟩
  simp [exec, move, hp, enqueueStep, htr]

/-- The consumer, alone, does what `dequeue` says. -/
theorem exec_dequeue (hd : s.deq = none) :
    ∃ n tr, exec (move N) s (List.replicate n .dequeue) =
        some (tr, { s with queue := (dequeue N s.queue).2 }) ∧
      tr.filterMap Event.result? = [(dequeue N s.queue).1] ∧
      tr.filterMap Event.logOp? =
        if ((s.queue.buffer (s.queue.tail &&& mask N)).seq - (s.queue.tail + 1)).toInt < 0 then []
        else [.pop (dequeue N s.queue).1] := by
  by_cases hdif : ((s.queue.buffer (s.queue.tail &&& mask N)).seq - (s.queue.tail + 1)).toInt < 0
  · have hdeq : dequeue N s.queue = (none, s.queue) := if_pos hdif
    have hstep : dequeueStep N s = (.empty, s) := by
      rw [dequeueStep, hd]
      exact if_pos hdif
    rw [hdeq]
    refine ⟨1, [.empty], ?_, rfl, (if_pos hdif).symm⟩
    simp [exec, move, hstep]
  · have hdeq : dequeue N s.queue = ((s.queue.buffer (s.queue.tail &&& mask N)).data,
        (s.queue.setSeq (s.queue.tail &&& mask N) (s.queue.tail + N)).advance) := if_neg hdif
    have hstep : dequeueStep N s = (.probed, { s with deq := some .read }) := by
      rw [dequeueStep, hd]
      exact if_neg hdif
    rw [hdeq]
    refine ⟨3, [.probed, .loaded, .dequeued _], ?_, rfl, (if_neg hdif).symm⟩
    simp [exec, List.replicate, move, hstep, hd]
    simp [dequeueStep]

end Exec

/-! ## The queue as the list of what is in it -/

section Quiet

variable {s : State T P} {g : Log (Call P × Option T)}

/-- Between calls, what has a ticket is in its cell. -/
theorem published_of_quiescent (hq : s.Quiescent) {i : Nat} (hi : i < g.pushed.length) :
    s.Published g i := by
  refine ⟨g.pushed[i].1, g.pushed[i].2, List.getElem?_eq_getElem hi, ?_⟩
  rintro ⟨-, h⟩
  rw [hq.1] at h
  cases h

variable [DecidableEq P] [Fintype P]

/-- A lone `enqueue` on a queue that is not full gets its cell at once and appends its item. -/
theorem Inv.lone_enqueue (hi : Inv k s g) (hfit : 2 ^ k + Fintype.card P < 2 ^ 64) (hk : k ≤ 64)
    (hk1 : 1 ≤ k) (hq : s.Quiescent) (p : P) (v : Option T) (hlen : g.pending.length < 2 ^ k) :
    ∃ q, enqueue (BitVec.ofNat 64 (2 ^ k)) s.queue v = some (true, q) ∧
      Inv k (s.leave q p) (g.push (s.call p, v)) := by
  have hno : ¬ s.Published g g.pushed.length := by
    rintro ⟨c, w, hget, -⟩
    exact Nat.lt_irrefl _ (List.getElem?_eq_some_iff.mp hget).1
  have hseq : (s.queue.buffer (s.queue.head &&& mask (BitVec.ofNat 64 (2 ^ k)))).seq -
      s.queue.head = 0 := by
    rw [Log.length_pending] at hlen
    have hle := g.popped_le
    rw [hi.head, slot_eq]
    rcases hi.seq g.pushed.length hle (by omega) with ⟨hpub, -⟩ | ⟨-, hseq⟩
    · exact absurd hpub hno
    · rw [hseq, BitVec.sub_self]
      rfl
  have henq : enqueue (BitVec.ofNat 64 (2 ^ k)) s.queue v = some (true, _) := if_pos hseq
  refine ⟨_, henq, ?_⟩
  obtain ⟨n, tr, hexec, -, hlog⟩ := exec_enqueue (hq.1 p) henq
  obtain ⟨g', hrun, hi'⟩ := (Run.of_exec (step_of_move _) hexec).simulate hi fun _ _ _ _ hi hs =>
    step_inv hfit hk hk1 hi hs
  rw [hlog] at hrun
  cases Run.single_iff.mp hrun
  exact hi'

/-- A lone `dequeue` returns the oldest pointer, or null when there is none, and removes it. -/
theorem Inv.lone_dequeue (hi : Inv k s g) (hfit : 2 ^ k + Fintype.card P < 2 ^ 64) (hk : k ≤ 64)
    (hk1 : 1 ≤ k) (hq : s.Quiescent) :
    (MPSCQSlotted.dequeue (BitVec.ofNat 64 (2 ^ k)) s.queue).1 =
        (g.pending.map Prod.snd).head?.join ∧
      ∃ g', Inv k { s with
        queue := (MPSCQSlotted.dequeue (BitVec.ofNat 64 (2 ^ k)) s.queue).2 } g' ∧
        g'.pending = g.pending.tail := by
  have hslot : s.queue.tail &&& mask (BitVec.ofNat 64 (2 ^ k)) = slot 64 k g.popped := by
    rw [hi.tail, slot_eq]
  obtain ⟨n, tr, hexec, -, hlog⟩ := exec_dequeue (N := BitVec.ofNat 64 (2 ^ k)) hq.2
  obtain ⟨g', hrun, hi'⟩ := (Run.of_exec (step_of_move _) hexec).simulate hi fun _ _ _ _ hi hs =>
    step_inv hfit hk hk1 hi hs
  rw [hslot] at hlog
  rcases Nat.lt_or_ge g.popped g.pushed.length with hlt | hge
  · -- the oldest item is in its cell
    obtain ⟨c, v, hget, hno⟩ := published_of_quiescent (g := g) hq hlt
    have hdif := fun h => hi.probe.mp h ⟨c, v, hget, hno⟩
    rw [if_neg hdif] at hlog
    rw [hlog] at hrun
    obtain ⟨hhead, hrest⟩ := (Run.single_iff.mp hrun).pending_pop
    exact ⟨by rw [hhead]; rfl, g', hi', hrest⟩
  · have hnil : g.pending = [] := g.pending_eq_nil_iff.mpr (Nat.le_antisymm hge g.popped_le)
    have hdif := hi.probe.mpr (by
      rintro ⟨c, v, hget, -⟩
      exact absurd (List.getElem?_eq_some_iff.mp hget).1 (Nat.not_lt.mpr hge))
    rw [if_pos hdif] at hlog
    rw [hlog] at hrun
    refine ⟨?_, g', hi', ?_⟩
    · rw [hnil, MPSCQSlotted.dequeue, hslot]
      rw [if_pos hdif]
      rfl
    · rw [Run.nil_iff.mp hrun, hnil]
      rfl

end Quiet

/-! ## Sequential use -/

/-- The queue in the hands of one thread. -/
def asFifo (N : Usize) : FifoImpl (MPSCQSlotted T) T where
  put q x := enqueue N q (some x)
  take q := some (dequeue N q)

/-- Between calls, the queue `q` of `2 ^ k` cells holds the list `l`. -/
def Holds (k : Nat) (q : MPSCQSlotted T) (l : List T) : Prop :=
  ∃ (s : State T Unit) (g : Log (Call Unit × Option T)), s.queue = q ∧ s.Quiescent ∧ Inv k s g ∧
    g.pending.map Prod.snd = l.map some

theorem holds_new (hk : k < 64) : Holds k (new (BitVec.ofNat 64 (2 ^ k)) : MPSCQSlotted T) [] :=
  ⟨State.init (new _), Log.empty, rfl, ⟨fun _ => rfl, rfl⟩, init_inv hk, rfl⟩

theorem Holds.put {q : MPSCQSlotted T} {l : List T} (h : Holds k q l) (hk : k < 64) (hk1 : 1 ≤ k)
    (hlen : l.length < 2 ^ k) (x : T) :
    ∃ q', (asFifo (BitVec.ofNat 64 (2 ^ k))).put q x = some (true, q') ∧ Holds k q' (l ++ [x]) := by
  obtain ⟨s, g, rfl, hq, hi, hg⟩ := h
  have hpending : g.pending.length < 2 ^ k := by
    have := congrArg List.length hg
    rw [List.length_map, List.length_map] at this
    omega
  obtain ⟨q', hq', hi'⟩ := hi.lone_enqueue (Usize.lap_fits hk (by simp)) (Nat.le_of_lt hk) hk1 hq ()
    (some x) hpending
  refine ⟨q', hq', s.leave q' (), g.push (s.call (), some x), rfl, ?_, hi', ?_⟩
  · exact ⟨fun p => by rw [State.leave_enq, Function.update_self], hq.2⟩
  · rw [Log.pending_push, List.map_append, hg, List.map_append]
    rfl

theorem Holds.take {q : MPSCQSlotted T} {l : List T} (h : Holds k q l) (hk : k < 64)
    (hk1 : 1 ≤ k) : ∃ q', (asFifo (BitVec.ofNat 64 (2 ^ k))).take q = some (l.head?, q') ∧
      Holds k q' l.tail := by
  obtain ⟨s, g, rfl, hq, hi, hg⟩ := h
  obtain ⟨hret, g', hi', hg'⟩ :=
    hi.lone_dequeue (Usize.lap_fits hk (by simp)) (Nat.le_of_lt hk) hk1 hq
  refine ⟨(MPSCQSlotted.dequeue (BitVec.ofNat 64 (2 ^ k)) s.queue).2, ?_, ?_⟩
  · have hhead : l.head? = (l.map some).head?.join := by cases l <;> rfl
    rw [hhead, ← hg, ← hret]
    rfl
  · refine ⟨{ s with queue := (MPSCQSlotted.dequeue (BitVec.ofNat 64 (2 ^ k)) s.queue).2 }, g', rfl,
      ⟨hq.1, hq.2⟩, hi', ?_⟩
    rw [hg', List.map_tail, hg, List.map_tail]

end Shclog.MPSCQSlotted
