import Shclog.Lib.Log
import Shclog.Lib.Calls

/-! # `UnboundedLinkedMPSCQ`: the intrusive linked queue

The class of `mpsc_queue.hpp`, one memory operation at a time, in the manner of `MPSCQueue`. An
item carries its own node, so a `Node*` is an item or the queue's stub, and `T` is the type of the
items' identities. `push` is the same code whether a producer runs it on its item or the consumer
on the stub. All builds are alike. -/

namespace Shclog

/-- A `Node*` that is not null: the node of an item, or the stub of the queue. -/
inductive Node (T : Type) where
  | stub
  | item (x : T)
  deriving DecidableEq

/-- `container_of`, which makes no sense for the stub. -/
def Node.item? {T : Type} : Node T → Option T
  | .stub => none
  | .item x => some x

/-- The fields of the class, and the `next` of every node. -/
structure UnboundedLinkedMPSCQ (T : Type) where
  head : Node T
  tail : Node T
  next : Node T → Option (Node T)

namespace UnboundedLinkedMPSCQ

variable {T P : Type}

/-- The constructor. -/
def new : UnboundedLinkedMPSCQ T where
  head := .stub
  tail := .stub
  next := fun _ => none

/-- What is left of `push(n)`; `prev` is what the exchange returned. -/
inductive Push (T : Type) where
  | reset (n : Node T)             -- `n->next = nullptr`
  | exchange (n : Node T)          -- `head.exchange(n)`
  | link (n prev : Node T)         -- `prev->next.store(n)`

/-- The node being pushed. -/
def Push.node : Push T → Node T
  | .reset n | .exchange n | .link n _ => n

/-- `n->next = x`. -/
def setNext [DecidableEq T] (q : UnboundedLinkedMPSCQ T) (n : Node T) (x : Option (Node T)) :
    UnboundedLinkedMPSCQ T :=
  { q with next := Function.update q.next n x }

/-- The next operation of `push`, and what is left of it then. -/
def push [DecidableEq T] (q : UnboundedLinkedMPSCQ T) :
    Push T → UnboundedLinkedMPSCQ T × Option (Push T)
  | .reset n => (q.setNext n none, some (.exchange n))
  | .exchange n => ({ q with head := n }, some (.link n q.head))
  | .link n prev => (q.setNext prev (some n), none)

/-- What the consumer inside `pop` does next; `t` is `local_tail`. -/
inductive Pop (T : Type) where
  | next (t : Node T)               -- `next->next.load()`, having moved `tail` off the stub
  | loadHead (t : Node T)           -- `head.load()`
  | push (t : Node T) (pc : Push T) -- `push(&stub)`
  | recheck (t : Node T)            -- `local_tail->next.load()`, once more

/-- `local_tail`. -/
def Pop.local_tail : Pop T → Node T
  | .next t | .loadHead t | .push t _ | .recheck t => t

/-- A call of `enqueue`: the producer, and how many calls it has returned from before. -/
abbrev Call (P : Type) := P × Nat

/-- What a step shows. The steps of `push` say whose they are: a producer's call, or the
consumer's. -/
inductive Event (T P : Type) where
  | called (c : Call P) (x : T)
  | reset (who : Option (Call P))
  | exchanged (who : Option (Call P)) (n prev : Node T)
  | linked (who : Option (Call P))
  | skipped               -- `pop` moved `tail` off the stub
  | unlinked              -- `pop` found no link after `local_tail`
  | alone                 -- `pop` found `local_tail` to be the head
  | empty                 -- `pop` returned null
  | dequeued (n : Node T) -- `pop` returned a node

/-- The queue, where every thread stands, and who owns what: `held x` when the `unique_ptr` of `x`
has been moved into a call of `enqueue` and has not come back from one of `dequeue`. -/
structure State (T P : Type) where
  queue : UnboundedLinkedMPSCQ T
  calls : P → Nat
  enq : P → Option (Push T)
  deq : Option (Pop T)
  held : T → Bool

namespace State

variable [DecidableEq P] [DecidableEq T]

/-- Nobody is inside a call yet, and the queue is empty. -/
def init : State T P := ⟨new, fun _ => 0, fun _ => none, none, fun _ => false⟩

/-- The call producer `p` is in, or will be in next. -/
def call (s : State T P) (p : P) : Call P := (p, s.calls p)

/-- `p` enters `enqueue` with the item `x`, which is the queue's from now on. -/
def enter (s : State T P) (p : P) (x : T) : State T P :=
  { s with
    enq := Function.update s.enq p (some (.reset (.item x)))
    held := Function.update s.held x true }

/-- `p` goes on to `pc`, having left the queue as `q`. -/
def goto (s : State T P) (q : UnboundedLinkedMPSCQ T) (p : P) (pc : Push T) : State T P :=
  { s with queue := q, enq := Function.update s.enq p (some pc) }

/-- `p` returns, having left the queue as `q`. -/
def leave (s : State T P) (q : UnboundedLinkedMPSCQ T) (p : P) : State T P :=
  { s with
    queue := q
    enq := Function.update s.enq p none
    calls := Function.update s.calls p (s.calls p + 1) }

/-- `tail = next; return local_tail;`, and the item is the caller's. -/
def give (s : State T P) (t next : Node T) : State T P :=
  { s with
    queue := { s.queue with tail := next }
    deq := none
    held := fun x => if t = .item x then false else s.held x }

/-- No call is in progress. -/
def Quiescent (s : State T P) : Prop := (∀ p, s.enq p = none) ∧ s.deq = none

end State

section Steps

variable [DecidableEq P] [DecidableEq T]

/-- What a step of `push` shows. -/
def Push.event (who : Option (Call P)) (q : UnboundedLinkedMPSCQ T) : Push T → Event T P
  | .reset _ => .reset who
  | .exchange n => .exchanged who n q.head
  | .link _ _ => .linked who

/-- The next operation of a producer. -/
def enqueueStep (s : State T P) (p : P) (pc : Push T) : Event T P × State T P :=
  let (q, left) := push s.queue pc
  (pc.event (some (s.call p)) s.queue,
    match left with
    | some pc' => s.goto q p pc'
    | none => s.leave q p)

/-- `if (next) { tail = next; return local_tail; }` with `next` loaded from `t`, and what happens
otherwise. -/
def giveOr (s : State T P) (t : Node T) (otherwise : Event T P × State T P) :
    Event T P × State T P :=
  match s.queue.next t with
  | some next => (.dequeued t, s.give t next)
  | none => otherwise

/-- The next operation of the consumer. -/
def dequeueStep (s : State T P) : Event T P × State T P :=
  match s.deq with
  | none =>
    let local_tail := s.queue.tail
    if local_tail = .stub then
      match s.queue.next local_tail with
      | none => (.empty, s)
      | some next =>
        (.skipped, { s with queue := { s.queue with tail := next }, deq := some (.next next) })
    else giveOr s local_tail (.unlinked, { s with deq := some (.loadHead local_tail) })
  | some (.next t) => giveOr s t (.unlinked, { s with deq := some (.loadHead t) })
  | some (.loadHead t) =>
    -- a producer has exchanged `head` but not linked `prev->next` yet
    if t ≠ s.queue.head then (.empty, { s with deq := none })
    else (.alone, { s with deq := some (.push t (.reset .stub)) })
  | some (.push t pc) =>
    let (q, left) := push s.queue pc
    (pc.event none s.queue,
      match left with
      | some pc' => { s with queue := q, deq := some (.push t pc') }
      | none => { s with queue := q, deq := some (.recheck t) })
  | some (.recheck t) => giveOr s t (.empty, { s with deq := none })

/-- One step: a producer enters `enqueue` with an item that is its own to give, or a thread does its
next operation. -/
inductive Step : State T P → Event T P → State T P → Prop
  | call {s : State T P} {p : P} {x : T} (h : s.enq p = none) (hx : s.held x = false) :
      Step s (.called (s.call p) x) (s.enter p x)
  | enqueue {s : State T P} {p : P} {pc : Push T} (h : s.enq p = some pc) :
      Step s (enqueueStep s p pc).1 (enqueueStep s p pc).2
  | dequeue (s : State T P) : Step s (dequeueStep s).1 (dequeueStep s).2

/-- The choice a step leaves open: which thread goes on, and what it calls `enqueue` with. -/
inductive Move (T P : Type) where
  | call (p : P) (x : T)
  | enqueue (p : P)
  | dequeue

/-- The step a move makes, if its thread can make it. -/
def move (s : State T P) : Move T P → Option (Event T P × State T P)
  | .call p x =>
    match s.enq p, s.held x with
    | none, false => some (.called (s.call p) x, s.enter p x)
    | _, _ => none
  | .enqueue p => (s.enq p).map (enqueueStep s p)
  | .dequeue => some (dequeueStep s)

theorem step_of_move (s : State T P) (m : Move T P) (e : Event T P) (s' : State T P)
    (h : move s m = some (e, s')) : Step s e s' := by
  cases m with
  | call p x =>
      rw [move] at h
      split at h
      · next hp hx =>
          cases h
          exact .call hp hx
      · cases h
  | enqueue p =>
      obtain ⟨pc, hp, he⟩ := Option.map_eq_some_iff.mp h
      have hstep := Step.enqueue hp
      rwa [he] at hstep
  | dequeue =>
      have hstep := Step.dequeue s
      rwa [Option.some.inj h] at hstep

end Steps

/-! ## What a run shows -/

namespace Event

/-- The node a step exchanges into `head`. -/
def exchanged? : Event T P → Option (Node T)
  | .exchanged _ n _ => some n
  | _ => none

/-- The node a step returns from `dequeue`. -/
def dequeued? : Event T P → Option (Node T)
  | .dequeued n => some n
  | _ => none

/-- What a call of `dequeue` returns. -/
def result? : Event T P → Option (Option (Node T))
  | .empty => some none
  | .dequeued n => some (some n)
  | _ => none

/-- A step as an operation on the log of exchanges; the stub is no part of it. -/
def logOp? : Event T P → Option (Lib.Log.Op T (Node T))
  | .exchanged _ (.item x) _ => some (.push x)
  | .dequeued n => some (.pop n)
  | _ => none

/-- The call a step begins, and the node it is to push. -/
def called? : Event T P → Option (Call P × Node T)
  | .called c x => some (c, .item x)
  | _ => none

/-- The node a producer's exchange puts into the queue, and the call it does it for. -/
def filed? : Event T P → Option (Call P × Node T)
  | .exchanged (some c) n _ => some (c, n)
  | _ => none

/-- `push` ends with the link, and a producer's `enqueue` with it. -/
def returned? : Event T P → Option (Call P)
  | .linked (some c) => some c
  | _ => none

end Event

/-- The nodes exchanged into `head` in a run, in order. -/
def exchanged (tr : List (Event T P)) : List (Node T) := tr.filterMap Event.exchanged?

/-- What the producers' calls put into the queue in a run, in order. -/
def filed (tr : List (Event T P)) : List (Call P × Node T) := tr.filterMap Event.filed?

/-- The nodes returned by a run's calls of `dequeue`, in order. -/
def delivered (tr : List (Event T P)) : List (Node T) := tr.filterMap Event.dequeued?

end UnboundedLinkedMPSCQ

end Shclog
