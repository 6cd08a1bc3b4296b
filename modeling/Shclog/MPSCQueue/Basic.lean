import Shclog.Types
import Shclog.Lib.Log

/-! # `MPSCQueue`: the bounded queue with a count

The class of `mpsc_queue.hpp`, one atomic operation at a time. Producers are threads running
`enqueue`, each standing at some point of it; one more thread runs `dequeue`. A step lets one
thread perform its next atomic operation, so a run is any interleaving of them (sequentially
consistent: the memory orders of the source play no part). The operations are those of a release
build; a debug build asserts of a cell that is stored to that it is empty, and of the count that it
is positive before it is taken from, both of which are shown to hold.

`T` is the type of the items, a `T*` is an `Option T`, and a call of `enqueue` is named by its
producer and by how many calls that producer made before it. -/

namespace Shclog

/-- `mpsc_queue::CreateError`. -/
inductive CreateError where
  | invalidCapacity
  | allocationFailed
  deriving DecidableEq

/-- The fields of the class; the buffer is what its cells hold, by index. -/
structure MPSCQueue (T : Type) where
  count : Usize
  head : Usize
  buffer : Usize → Option T
  tail : Usize
  bufMask : Usize
  max : Usize

namespace MPSCQueue

variable {T P : Type}

/-- The constructor: everything zero or null but the two constants. -/
def new (capacity : Usize) : MPSCQueue T where
  count := 0
  head := 0
  buffer := fun _ => none
  tail := 0
  bufMask := capacity - 1
  max := capacity

/-- `create`; the two flags say whether the buffer and the queue could be allocated. -/
def create (capacity : Usize) (bufAlloc queueAlloc : Bool) : Except CreateError (MPSCQueue T) :=
  if capacity < 2 || capacity &&& (capacity - 1) != 0 then .error .invalidCapacity
  else if !bufAlloc then .error .allocationFailed
  else if !queueAlloc then .error .allocationFailed
  else .ok (new capacity)

def size (q : MPSCQueue T) : Usize := q.count

def capacity (q : MPSCQueue T) : Usize := q.max

/-! ## The shared-memory operations -/

/-- `count.fetch_add(1)`. -/
def countAdd (q : MPSCQueue T) : MPSCQueue T := { q with count := q.count + 1 }

/-- `count.fetch_sub(1)`. -/
def countSub (q : MPSCQueue T) : MPSCQueue T := { q with count := q.count - 1 }

/-- `head.fetch_add(1)`. -/
def headAdd (q : MPSCQueue T) : MPSCQueue T := { q with head := q.head + 1 }

/-- `buffer[h & buf_mask].store(v)`; a debug build exchanges instead and asserts that the pointer
it gets back, `q.buffer (h &&& q.bufMask)`, is null. -/
def store (q : MPSCQueue T) (h : Usize) (v : T) : MPSCQueue T :=
  { q with buffer := Function.update q.buffer (h &&& q.bufMask) (some v) }

/-- `buffer[tail].exchange(nullptr)`. -/
def clear (q : MPSCQueue T) : MPSCQueue T :=
  { q with buffer := Function.update q.buffer q.tail none }

/-- `tail = (tail + 1) & buf_mask`. -/
def advance (q : MPSCQueue T) : MPSCQueue T := { q with tail := (q.tail + 1) &&& q.bufMask }

/-! ## Threads -/

/-- What a producer inside `enqueue` does next. Until it stores, the caller's `unique_ptr` still
holds the item. -/
inductive Enqueue (T : Type) where
  | load (v : Option T)           -- the null check, then `count.load()`
  | reserve (v : T)               -- `count.fetch_add(1)`
  | undo (v : T)                  -- `count.fetch_sub(1)` after a failed reservation
  | ticket (v : T)                -- `head.fetch_add(1)`
  | store (v : T) (h : Usize)     -- `buffer[h & buf_mask].store(v.release())`

/-- A call of `enqueue`: the producer, and how many calls it has returned from before. -/
abbrev Call (P : Type) := P × Nat

/-- What a step shows. `returned c b v` is the end of a call: the result, and what the caller's
`unique_ptr` holds afterwards. `taken` is the consumer's exchange when it finds an item, `dequeued`
the end of a call of `dequeue`. -/
inductive Event (T P : Type) where
  | called (c : Call P) (v : Option T)
  | loaded (c : Call P)
  | reserved (c : Call P) (accepted : Bool)
  | ticket (c : Call P) (v : T)
  | returned (c : Call P) (b : Bool) (v : Option T)
  | taken
  | dequeued (r : Option T)

/-- The queue and where every thread stands: a producer is outside `enqueue` or at some point of
it; the consumer is outside `dequeue`, or holds the item it took and has yet to release its slot. -/
structure State (T P : Type) where
  queue : MPSCQueue T
  calls : P → Nat
  enq : P → Option (Enqueue T)
  deq : Option T

namespace State

variable [DecidableEq P]

/-- Nobody is inside a call yet. -/
def init (q : MPSCQueue T) : State T P := ⟨q, fun _ => 0, fun _ => none, none⟩

/-- The call producer `p` is in, or will be in next. -/
def call (s : State T P) (p : P) : Call P := (p, s.calls p)

/-- `p` goes on to `pc`, having left the queue as `q`. -/
def goto (s : State T P) (q : MPSCQueue T) (p : P) (pc : Enqueue T) : State T P :=
  { s with queue := q, enq := Function.update s.enq p (some pc) }

/-- `p` returns, having left the queue as `q`. -/
def leave (s : State T P) (q : MPSCQueue T) (p : P) : State T P :=
  { s with
    queue := q
    enq := Function.update s.enq p none
    calls := Function.update s.calls p (s.calls p + 1) }

@[simp] theorem goto_queue (s : State T P) (q : MPSCQueue T) (p : P) (pc : Enqueue T) :
    (s.goto q p pc).queue = q := rfl
@[simp] theorem goto_calls (s : State T P) (q : MPSCQueue T) (p : P) (pc : Enqueue T) :
    (s.goto q p pc).calls = s.calls := rfl
@[simp] theorem goto_enq (s : State T P) (q : MPSCQueue T) (p : P) (pc : Enqueue T) :
    (s.goto q p pc).enq = Function.update s.enq p (some pc) := rfl
@[simp] theorem goto_deq (s : State T P) (q : MPSCQueue T) (p : P) (pc : Enqueue T) :
    (s.goto q p pc).deq = s.deq := rfl
@[simp] theorem leave_queue (s : State T P) (q : MPSCQueue T) (p : P) :
    (s.leave q p).queue = q := rfl
@[simp] theorem leave_calls (s : State T P) (q : MPSCQueue T) (p : P) :
    (s.leave q p).calls = Function.update s.calls p (s.calls p + 1) := rfl
@[simp] theorem leave_enq (s : State T P) (q : MPSCQueue T) (p : P) :
    (s.leave q p).enq = Function.update s.enq p none := rfl
@[simp] theorem leave_deq (s : State T P) (q : MPSCQueue T) (p : P) :
    (s.leave q p).deq = s.deq := rfl

/-- No call is in progress. -/
def Quiescent (s : State T P) : Prop := (∀ p, s.enq p = none) ∧ s.deq = none

end State

variable [DecidableEq P]

/-- The next atomic operation of a producer that stands at `pc`. -/
def enqueueStep (s : State T P) (p : P) : Enqueue T → Event T P × State T P
  | .load none => (.returned (s.call p) false none, s.leave s.queue p)
  | .load (some v) =>
    if s.queue.count ≥ s.queue.max then
      (.returned (s.call p) false (some v), s.leave s.queue p)
    else
      (.loaded (s.call p), s.goto s.queue p (.reserve v))
  | .reserve v =>
    -- `cur_count`, what `fetch_add` returns, is the value before the addition
    if s.queue.count ≥ s.queue.max then
      (.reserved (s.call p) false, s.goto s.queue.countAdd p (.undo v))
    else
      (.reserved (s.call p) true, s.goto s.queue.countAdd p (.ticket v))
  | .undo v => (.returned (s.call p) false (some v), s.leave s.queue.countSub p)
  | .ticket v => (.ticket (s.call p) v, s.goto s.queue.headAdd p (.store v s.queue.head))
  | .store v h => (.returned (s.call p) true none, s.leave (s.queue.store h v) p)

/-- The next atomic operation of the consumer. `tail` is its own, so moving it is no operation. -/
def dequeueStep (s : State T P) : Event T P × State T P :=
  match s.deq with
  | none =>
    match s.queue.buffer s.queue.tail with
    | none => (.dequeued none, { s with queue := s.queue.clear })
    | some ret => (.taken, { s with queue := s.queue.clear.advance, deq := some ret })
  | some ret => (.dequeued (some ret), { s with queue := s.queue.countSub, deq := none })

/-- One step: a producer enters `enqueue` with some pointer, or a thread does its next operation. -/
inductive Step : State T P → Event T P → State T P → Prop
  | call {s : State T P} {p : P} (v : Option T) (h : s.enq p = none) :
      Step s (.called (s.call p) v) (s.goto s.queue p (.load v))
  | enqueue {s : State T P} {p : P} {pc : Enqueue T} (h : s.enq p = some pc) :
      Step s (enqueueStep s p pc).1 (enqueueStep s p pc).2
  | dequeue (s : State T P) : Step s (dequeueStep s).1 (dequeueStep s).2

/-- The choice a step leaves open: which thread goes on, and what it calls `enqueue` with. -/
inductive Move (T P : Type) where
  | call (p : P) (v : Option T)
  | enqueue (p : P)
  | dequeue

/-- The step a move makes, if its thread can make it. -/
def move (s : State T P) : Move T P → Option (Event T P × State T P)
  | .call p v =>
    match s.enq p with
    | none => some (.called (s.call p) v, s.goto s.queue p (.load v))
    | some _ => none
  | .enqueue p => (s.enq p).map (enqueueStep s p)
  | .dequeue => some (dequeueStep s)

theorem step_of_move (s : State T P) (m : Move T P) (e : Event T P) (s' : State T P)
    (h : move s m = some (e, s')) : Step s e s' := by
  cases m with
  | call p v =>
      rw [move] at h
      split at h
      · next hp =>
          cases h
          exact .call v hp
      · cases h
  | enqueue p =>
      obtain ⟨pc, hp, he⟩ := Option.map_eq_some_iff.mp h
      have hstep := Step.enqueue hp
      rwa [he] at hstep
  | dequeue =>
      have hstep := Step.dequeue s
      rwa [Option.some.inj h] at hstep

/-! ## What a run shows -/

namespace Event

omit [DecidableEq P]

/-- The entry a step adds to the order of tickets. -/
def ticket? : Event T P → Option (Call P × T)
  | .ticket c v => some (c, v)
  | _ => none

/-- The item a step delivers. -/
def delivered? : Event T P → Option T
  | .dequeued r => r
  | _ => none

/-- What a call of `dequeue` returns. -/
def result? : Event T P → Option (Option T)
  | .dequeued r => some r
  | _ => none

/-- A step as an operation on the log of tickets. -/
def logOp? : Event T P → Option (Lib.Log.Op (Call P × T) T)
  | .ticket c v => some (.push (c, v))
  | .dequeued (some v) => some (.pop v)
  | _ => none

end Event

/-- The items of a run with the calls that brought them, in the order of their `head` tickets. -/
def tickets (tr : List (Event T P)) : List (Call P × T) := tr.filterMap Event.ticket?

/-- The non-null pointers a run's calls of `dequeue` returned, in order. -/
def delivered (tr : List (Event T P)) : List T := tr.filterMap Event.delivered?

end MPSCQueue

end Shclog
