import Shclog.Types
import Shclog.Lib.Log

/-! # `MPSCQSlotted`: the queue with a stamp on every cell

The class of `mpsc_queue.hpp`, one memory operation at a time, in the manner of `MPSCQueue`:
producers stand at some point of `enqueue`, the consumer at some point of `dequeue`, and a step
lets one of them do its next operation. Producers take a ticket first and then spin on the `seq`
of the cell it names, so a ticket may be many laps ahead of its cell. `N` is the template's. All
builds are alike. -/

namespace Shclog

/-- `MPSCQSlotted::Cell`. -/
structure Cell (T : Type) where
  seq : Usize := 0
  data : Option T := none

/-- The fields of the class; the buffer is what its cells hold, by index. -/
@[ext] structure MPSCQSlotted (T : Type) where
  tail : Usize
  head : Usize
  buffer : Usize → Cell T

namespace MPSCQSlotted

variable {T P : Type}

/-- The constructor: a cell's stamp is at first its own index. -/
def new (N : Usize) : MPSCQSlotted T where
  tail := 0
  head := 0
  buffer := fun i => if i < N then { seq := i } else {}

/-- `MASK`. -/
def mask (N : Usize) : Usize := N - 1

/-! ## The shared-memory operations -/

/-- `head.fetch_add(1)`. -/
def headAdd (q : MPSCQSlotted T) : MPSCQSlotted T := { q with head := q.head + 1 }

/-- `slot->data = v` at the cell `i`. -/
def setData (q : MPSCQSlotted T) (i : Usize) (v : Option T) : MPSCQSlotted T :=
  { q with buffer := Function.update q.buffer i { q.buffer i with data := v } }

/-- `slot->seq.store(x)` at the cell `i`. -/
def setSeq (q : MPSCQSlotted T) (i x : Usize) : MPSCQSlotted T :=
  { q with buffer := Function.update q.buffer i { q.buffer i with seq := x } }

/-- `tail++`. -/
def advance (q : MPSCQSlotted T) : MPSCQSlotted T := { q with tail := q.tail + 1 }

section Cells

variable {q : MPSCQSlotted T} {i j x : Usize} {v : Option T}

@[simp] theorem setData_self : (q.setData i v).buffer i = { q.buffer i with data := v } :=
  Function.update_self ..

theorem setData_of_ne (h : j ≠ i) : (q.setData i v).buffer j = q.buffer j :=
  Function.update_of_ne h ..

@[simp] theorem setSeq_self : (q.setSeq i x).buffer i = { q.buffer i with seq := x } :=
  Function.update_self ..

theorem setSeq_of_ne (h : j ≠ i) : (q.setSeq i x).buffer j = q.buffer j :=
  Function.update_of_ne h ..

@[simp] theorem setData_seq : ((q.setData i v).buffer j).seq = (q.buffer j).seq := by
  by_cases h : j = i
  · rw [h, setData_self]
  · rw [setData_of_ne h]

@[simp] theorem setSeq_data : ((q.setSeq i x).buffer j).data = (q.buffer j).data := by
  by_cases h : j = i
  · rw [h, setSeq_self]
  · rw [setSeq_of_ne h]

end Cells

/-! ## Threads -/

/-- What a producer inside `enqueue` does next; `v` is what the caller's `unique_ptr` held. -/
inductive Enqueue (T : Type) where
  | ticket (v : Option T)                  -- `head.fetch_add(1)`
  | spin (v : Option T) (pos : Usize)      -- `slot->seq.load()`, until it is `pos`
  | write (v : Option T) (pos : Usize)     -- `slot->data = v.release()`
  | publish (v : Option T) (pos : Usize)   -- `slot->seq.store(pos + 1)`

/-- What the consumer inside `dequeue` does next, once it has found its cell stamped. -/
inductive Dequeue (T : Type) where
  | read                      -- `slot->data`
  | release (v : Option T)    -- `slot->seq.store(tail + N)`

/-- A call of `enqueue`: the producer, and how many calls it has returned from before. -/
abbrev Call (P : Type) := P × Nat

/-- What a step shows. `empty` is a `dequeue` that returns null because its cell is not stamped
yet, `dequeued v` one that returns the pointer it found there. -/
inductive Event (T P : Type) where
  | called (c : Call P) (v : Option T)
  | ticket (c : Call P) (v : Option T)
  | waited (c : Call P)
  | passed (c : Call P)
  | written (c : Call P)
  | returned (c : Call P) (b : Bool)
  | empty
  | probed
  | loaded
  | dequeued (v : Option T)

structure State (T P : Type) where
  queue : MPSCQSlotted T
  calls : P → Nat
  enq : P → Option (Enqueue T)
  deq : Option (Dequeue T)

namespace State

variable [DecidableEq P]

/-- Nobody is inside a call yet. -/
def init (q : MPSCQSlotted T) : State T P := ⟨q, fun _ => 0, fun _ => none, none⟩

/-- The call producer `p` is in, or will be in next. -/
def call (s : State T P) (p : P) : Call P := (p, s.calls p)

/-- `p` goes on to `pc`, having left the queue as `q`. -/
def goto (s : State T P) (q : MPSCQSlotted T) (p : P) (pc : Enqueue T) : State T P :=
  { s with queue := q, enq := Function.update s.enq p (some pc) }

/-- `p` returns, having left the queue as `q`. -/
def leave (s : State T P) (q : MPSCQSlotted T) (p : P) : State T P :=
  { s with
    queue := q
    enq := Function.update s.enq p none
    calls := Function.update s.calls p (s.calls p + 1) }

@[simp] theorem goto_queue (s : State T P) (q : MPSCQSlotted T) (p : P) (pc : Enqueue T) :
    (s.goto q p pc).queue = q := rfl
@[simp] theorem goto_calls (s : State T P) (q : MPSCQSlotted T) (p : P) (pc : Enqueue T) :
    (s.goto q p pc).calls = s.calls := rfl
@[simp] theorem goto_enq (s : State T P) (q : MPSCQSlotted T) (p : P) (pc : Enqueue T) :
    (s.goto q p pc).enq = Function.update s.enq p (some pc) := rfl
@[simp] theorem goto_deq (s : State T P) (q : MPSCQSlotted T) (p : P) (pc : Enqueue T) :
    (s.goto q p pc).deq = s.deq := rfl
@[simp] theorem leave_queue (s : State T P) (q : MPSCQSlotted T) (p : P) :
    (s.leave q p).queue = q := rfl
@[simp] theorem leave_calls (s : State T P) (q : MPSCQSlotted T) (p : P) :
    (s.leave q p).calls = Function.update s.calls p (s.calls p + 1) := rfl
@[simp] theorem leave_enq (s : State T P) (q : MPSCQSlotted T) (p : P) :
    (s.leave q p).enq = Function.update s.enq p none := rfl
@[simp] theorem leave_deq (s : State T P) (q : MPSCQSlotted T) (p : P) :
    (s.leave q p).deq = s.deq := rfl

/-- No call is in progress. -/
def Quiescent (s : State T P) : Prop := (∀ p, s.enq p = none) ∧ s.deq = none

end State

variable [DecidableEq P] (N : Usize)

/-- The next operation of a producer that stands at `pc`. -/
def enqueueStep (s : State T P) (p : P) : Enqueue T → Event T P × State T P
  | .ticket v => (.ticket (s.call p) v, s.goto s.queue.headAdd p (.spin v s.queue.head))
  | .spin v pos =>
    let dif := (s.queue.buffer (pos &&& mask N)).seq - pos
    if dif = 0 then (.passed (s.call p), s.goto s.queue p (.write v pos))
    else (.waited (s.call p), s)
  | .write v pos =>
    (.written (s.call p), s.goto (s.queue.setData (pos &&& mask N) v) p (.publish v pos))
  | .publish _ pos =>
    (.returned (s.call p) true, s.leave (s.queue.setSeq (pos &&& mask N) (pos + 1)) p)

/-- The next operation of the consumer. `tail` is its own, so moving it is no operation. -/
def dequeueStep (s : State T P) : Event T P × State T P :=
  let slot := s.queue.tail &&& mask N
  match s.deq with
  | none =>
    let dif := (s.queue.buffer slot).seq - (s.queue.tail + 1)
    -- `dif` is an `isize`
    if dif.toInt < 0 then (.empty, s) else (.probed, { s with deq := some .read })
  | some .read => (.loaded, { s with deq := some (.release (s.queue.buffer slot).data) })
  | some (.release v) =>
    (.dequeued v, { s with
      queue := (s.queue.setSeq slot (s.queue.tail + N)).advance
      deq := none })

/-- One step: a producer enters `enqueue` with some pointer, or a thread does its next operation. -/
inductive Step : State T P → Event T P → State T P → Prop
  | call {s : State T P} {p : P} (v : Option T) (h : s.enq p = none) :
      Step s (.called (s.call p) v) (s.goto s.queue p (.ticket v))
  | enqueue {s : State T P} {p : P} {pc : Enqueue T} (h : s.enq p = some pc) :
      Step s (enqueueStep N s p pc).1 (enqueueStep N s p pc).2
  | dequeue (s : State T P) : Step s (dequeueStep N s).1 (dequeueStep N s).2

/-- The choice a step leaves open: which thread goes on, and what it calls `enqueue` with. -/
inductive Move (T P : Type) where
  | call (p : P) (v : Option T)
  | enqueue (p : P)
  | dequeue

/-- The step a move makes, if its thread can make it. -/
def move (s : State T P) : Move T P → Option (Event T P × State T P)
  | .call p v =>
    match s.enq p with
    | none => some (.called (s.call p) v, s.goto s.queue p (.ticket v))
    | some _ => none
  | .enqueue p => (s.enq p).map (enqueueStep N s p)
  | .dequeue => some (dequeueStep N s)

theorem step_of_move (s : State T P) (m : Move T P) (e : Event T P) (s' : State T P)
    (h : move N s m = some (e, s')) : Step N s e s' := by
  cases m with
  | call p v =>
      rw [move] at h
      split at h
      · next hp =>
          cases h
          exact .call v hp
      · cases h
  | enqueue p =>
      obtain ⟨pc, hp, he⟩ := Option.map_eq_some_iff.mp h
      have hstep := Step.enqueue (N := N) hp
      rwa [he] at hstep
  | dequeue =>
      have hstep := Step.dequeue (N := N) s
      rwa [Option.some.inj h] at hstep

/-! ## What a run shows -/

namespace Event

omit [DecidableEq P]

/-- The entry a step adds to the order of tickets. -/
def ticket? : Event T P → Option (Call P × Option T)
  | .ticket c v => some (c, v)
  | _ => none

/-- The pointer a step takes out of the queue. -/
def dequeued? : Event T P → Option (Option T)
  | .dequeued v => some v
  | _ => none

/-- What a call of `dequeue` returns. -/
def result? : Event T P → Option (Option T)
  | .empty => some none
  | .dequeued v => some v
  | _ => none

/-- A step as an operation on the log of tickets. -/
def logOp? : Event T P → Option (Lib.Log.Op (Call P × Option T) (Option T))
  | .ticket c v => some (.push (c, v))
  | .dequeued v => some (.pop v)
  | _ => none

end Event

omit [DecidableEq P]

/-- What was enqueued in a run and by which calls, in the order of their `head` tickets. -/
def tickets (tr : List (Event T P)) : List (Call P × Option T) := tr.filterMap Event.ticket?

/-- What was taken out of the queue in a run, in order. -/
def dequeued (tr : List (Event T P)) : List (Option T) := tr.filterMap Event.dequeued?

/-- The results of a run's calls of `dequeue`, in order. -/
def results (tr : List (Event T P)) : List (Option T) := tr.filterMap Event.result?

end MPSCQSlotted

end Shclog
