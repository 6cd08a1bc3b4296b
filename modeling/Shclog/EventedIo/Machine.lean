import Shclog.EventedIo.Basic

/-! # The ring in use

`EventedIo` between its threads and the kernel, one memory operation at a time. The class allows
one thread at a time; here a thread inside a push and a thread inside a pop may go on side by side,
which only adds interleavings. The kernel reads published entries, gives them back, posts
completions, makes them visible and sets flags whenever it likes, and every `io_uring_enter` may
fail or return early. -/

namespace Shclog

/-! ## The two sides -/

/-- The submission ring: `sq_head`, `sq_tail`, `sq_mask`, `sq_array` and `sqes`. -/
structure Sq where
  head : U32
  tail : U32
  mask : U32
  array : U32 → U32
  sqes : U32 → Sqe

namespace Sq

/-- How many entries are published and not given back. -/
def count (q : Sq) : Nat := (q.tail - q.head).toNat

def entries (q : Sq) : Nat := q.mask.toNat + 1

/-- The cell of `sq_array` that is `d` behind the head. -/
def cell (q : Sq) (d : Nat) : U32 := (q.head + BitVec.ofNat 32 d) &&& q.mask

/-- The entries that are published and not given back, oldest first. -/
def pending (q : Sq) : List Sqe := Lib.ringFrom q.mask (fun c => q.sqes (q.array c)) q.head q.count

end Sq

/-- The completion ring: `cq_head`, `cq_tail`, `cq_mask` and `cqes`. -/
structure Cq where
  head : U32
  tail : U32
  mask : U32
  cqes : U32 → I32

namespace Cq

/-- How many completions are visible and not taken. -/
def count (q : Cq) : Nat := (q.tail - q.head).toNat

def entries (q : Cq) : Nat := q.mask.toNat + 1

/-- The cell of the completion that is `d` behind the head. -/
def cell (q : Cq) (d : Nat) : U32 := (q.head + BitVec.ofNat 32 d) &&& q.mask

end Cq

namespace EventedIo

def sq (q : EventedIo) : Sq := ⟨q.sqHead, q.sqTail, q.sqMask, q.sqArray, q.sqes⟩

def cq (q : EventedIo) : Cq := ⟨q.cqHead, q.cqTail, q.cqMask, q.cqes⟩

/-! ## Threads -/

/-- What the thread inside a push does next. -/
inductive Pushing where
  | tail (r : Request)                                    -- `sq_tail->load()`
  | head (r : Request) (tail : U32)                       -- `sq_head->load()`
  | fill (r : Request) (slot : U32) (todo : List Store)   -- what is left to assign, then `sq_array`
  | publish (r : Request) (slot : U32)                    -- `sq_tail->store(slot + 1)`
  | flags                                                 -- `*sq_flags`
  | enter (args : Enter)                                  -- `io_uring_enter`

/-- What the thread inside a pop does next. -/
inductive Popping where
  | enter (k : Pop)                           -- `io_uring_enter`
  | head (k : Pop)                            -- `cq_head->load()`
  | tail (k : Pop) (head : U32)               -- `cq_tail->load()`
  | read (k : Pop) (head : U32)               -- `cqes[head & cq_mask].res`
  | release (k : Pop) (head : U32) (rc : I32) -- `cq_head->store(head + 1)`

/-- What a step shows. A push returns at `refused` and at `pushEntered`; a pop at a `popEntered` or
`cqTailLoaded` that says no, and at `popped`. The last five are the kernel's. -/
inductive Event where
  | pushCalled (r : Request)
  | tailLoaded
  | refused (head : U32)
  | granted (head : U32)
  | sqeStored (index : U32)
  | arrayStored (index : U32)
  | published (r : Request)
  | flagsLoaded
  | pushEntered (args : Enter) (ok : Bool)
  | popCalled (k : Pop)
  | popEntered (args : Enter) (ok : Bool)
  | cqHeadLoaded
  | cqTailLoaded (found : Bool)
  | resLoaded
  | popped (rc : I32) (res : PopResult)
  | consumed (sqe : Sqe)
  | released (n : Nat)
  | posted (res : I32)
  | committed (n : Nat)
  | flagged (flags : U32)

/-- The shared memory, the two threads, how many pending entries the kernel has read, and how many
completions it has written behind `cq_tail`. -/
structure State where
  io : EventedIo
  push : Option Pushing
  pop : Option Popping
  taken : Nat
  posted : Nat

/-- No call is in progress, and neither is anything in the kernel. -/
def idle (q : EventedIo) : State := ⟨q, none, none, 0, 0⟩

/-- A ring over zeroed memory with as many entries on either side, its counters all at `start` and
the kernel's thread, if it has one, asleep. -/
def fresh (mask start : U32) (isSqPoll : Bool) : EventedIo where
  ringFd := 3
  sqHead := start
  sqTail := start
  sqFlags := if isSqPoll then sqNeedWakeup else 0
  sqArray := fun _ => 0
  sqMask := mask
  sqes := fun _ => {}
  cqHead := start
  cqTail := start
  cqMask := mask
  cqes := fun _ => 0
  isSqPoll := isSqPoll
  registeredRingFd := none

/-- A write of 16 bytes, those from `n` on. -/
def writeFrom (n : U64) : Request := .write 5 ⟨n, 16⟩ 0 0 0 false 0

/-- The next operation of a push; `ok` is whether `io_uring_enter` succeeds, if that is what it is. -/
def pushStep (s : State) (ok : Bool) : Pushing → Event × State
  | .tail r => (.tailLoaded, { s with push := some (.head r s.io.sqTail) })
  | .head r tail =>
    if noSqSlot tail s.io.sqHead s.io.sqMask then
      (.refused s.io.sqHead, { s with push := none })
    else (.granted s.io.sqHead, { s with push := some (.fill r tail r.stores) })
  | .fill r slot (st :: todo) =>
    let index := slot &&& s.io.sqMask
    (.sqeStored index, { s with io := s.io.storeSqe index st, push := some (.fill r slot todo) })
  | .fill r slot [] =>
    let index := slot &&& s.io.sqMask
    (.arrayStored index, { s with io := s.io.storeArray index, push := some (.publish r slot) })
  | .publish r slot =>
    let next := if s.io.isSqPoll then .flags else .enter s.io.submitEnter
    (.published r, { s with io := s.io.storeSqTail (slot + 1), push := some next })
  | .flags =>
    let args := if s.io.needWakeup then s.io.wakeEnter else s.io.submitEnter
    (.flagsLoaded, { s with push := some (.enter args) })
  | .enter args => (.pushEntered args ok, { s with push := none })

/-- The next operation of a pop. -/
def popStep (s : State) (ok : Bool) : Popping → Event × State
  | .enter k =>
    (.popEntered s.io.waitEnter ok, { s with pop := if ok then some (.head k) else none })
  | .head k => (.cqHeadLoaded, { s with pop := some (.tail k s.io.cqHead) })
  | .tail k head =>
    if head = s.io.cqTail then (.cqTailLoaded false, { s with pop := none })
    else (.cqTailLoaded true, { s with pop := some (.read k head) })
  | .read k head =>
    (.resLoaded, { s with pop := some (.release k head (s.io.cqes (head &&& s.io.cqMask))) })
  | .release k head rc =>
    (.popped rc (k.resultOf rc), { s with io := s.io.storeCqHead (head + 1), pop := none })

/-- One step: a thread enters a call or does the next operation of the call it is in, or the kernel
does something. -/
inductive Step : State → Event → State → Prop
  | pushCall {s : State} (r : Request) (h : s.push = none) :
      Step s (.pushCalled r) { s with push := some (.tail r) }
  | push {s : State} {pc : Pushing} (ok : Bool) (h : s.push = some pc) :
      Step s (pushStep s ok pc).1 (pushStep s ok pc).2
  | popCall {s : State} (k : Pop) (h : s.pop = none) :
      Step s (.popCalled k) { s with pop := some (.enter k) }
  | pop {s : State} {pc : Popping} (ok : Bool) (h : s.pop = some pc) :
      Step s (popStep s ok pc).1 (popStep s ok pc).2
  | consume {s : State} (h : s.taken < s.io.sq.count) :
      Step s (.consumed (s.io.sqes (s.io.sqArray (s.io.sq.cell s.taken))))
        { s with taken := s.taken + 1 }
  | release {s : State} {n : Nat} (h : n ≤ s.taken) :
      Step s (.released n) { s with io := s.io.releaseSq n, taken := s.taken - n }
  | post {s : State} (res : I32) (h : s.io.cq.count + s.posted < s.io.cq.entries) :
      Step s (.posted res) { s with
        io := s.io.storeCqe (s.io.cq.cell (s.io.cq.count + s.posted)) res
        posted := s.posted + 1 }
  | commit {s : State} {n : Nat} (h : n ≤ s.posted) :
      Step s (.committed n) { s with io := s.io.commitCq n, posted := s.posted - n }
  | flag {s : State} (flags : U32) :
      Step s (.flagged flags) { s with io := { s.io with sqFlags := flags } }

/-- The choice a step leaves open. -/
inductive Move where
  | pushCall (r : Request)
  | push (ok : Bool)
  | popCall (k : Pop)
  | pop (ok : Bool)
  | consume
  | release (n : Nat)
  | post (res : I32)
  | commit (n : Nat)
  | flag (flags : U32)

/-- The step a move makes, if it can be made. -/
def move (s : State) : Move → Option (Event × State)
  | .pushCall r =>
    match s.push with
    | none => some (.pushCalled r, { s with push := some (.tail r) })
    | some _ => none
  | .push ok => s.push.map (pushStep s ok)
  | .popCall k =>
    match s.pop with
    | none => some (.popCalled k, { s with pop := some (.enter k) })
    | some _ => none
  | .pop ok => s.pop.map (popStep s ok)
  | .consume =>
    if s.taken < s.io.sq.count then
      some (.consumed (s.io.sqes (s.io.sqArray (s.io.sq.cell s.taken))),
        { s with taken := s.taken + 1 })
    else none
  | .release n =>
    if n ≤ s.taken then
      some (.released n, { s with io := s.io.releaseSq n, taken := s.taken - n })
    else none
  | .post res =>
    if s.io.cq.count + s.posted < s.io.cq.entries then
      some (.posted res, { s with
        io := s.io.storeCqe (s.io.cq.cell (s.io.cq.count + s.posted)) res
        posted := s.posted + 1 })
    else none
  | .commit n =>
    if n ≤ s.posted then
      some (.committed n, { s with io := s.io.commitCq n, posted := s.posted - n })
    else none
  | .flag flags => some (.flagged flags, { s with io := { s.io with sqFlags := flags } })

theorem step_of_move (s : State) (m : Move) (e : Event) (s' : State)
    (h : move s m = some (e, s')) : Step s e s' := by
  cases m with
  | pushCall r =>
      rw [move] at h
      split at h
      · next hp =>
          cases h
          exact .pushCall r hp
      · cases h
  | push ok =>
      obtain ⟨pc, hp, he⟩ := Option.map_eq_some_iff.mp h
      have hstep := Step.push ok hp
      rwa [he] at hstep
  | popCall k =>
      rw [move] at h
      split at h
      · next hp =>
          cases h
          exact .popCall k hp
      · cases h
  | pop ok =>
      obtain ⟨pc, hp, he⟩ := Option.map_eq_some_iff.mp h
      have hstep := Step.pop ok hp
      rwa [he] at hstep
  | consume =>
      obtain ⟨hlt, he⟩ := Option.ite_none_right_eq_some.mp h
      cases he
      exact .consume hlt
  | release n =>
      obtain ⟨hle, he⟩ := Option.ite_none_right_eq_some.mp h
      cases he
      exact .release hle
  | post res =>
      obtain ⟨hlt, he⟩ := Option.ite_none_right_eq_some.mp h
      cases he
      exact .post res hlt
  | commit n =>
      obtain ⟨hle, he⟩ := Option.ite_none_right_eq_some.mp h
      cases he
      exact .commit hle
  | flag flags =>
      cases h
      exact .flag flags

theorem move_of_step {s : State} {e : Event} {s' : State} (h : Step s e s') :
    ∃ m, move s m = some (e, s') := by
  cases h with
  | pushCall r h => exact ⟨.pushCall r, by rw [move, h]⟩
  | push ok h => exact ⟨.push ok, by rw [move, h]; rfl⟩
  | popCall k h => exact ⟨.popCall k, by rw [move, h]⟩
  | pop ok h => exact ⟨.pop ok, by rw [move, h]; rfl⟩
  | consume h => exact ⟨.consume, if_pos h⟩
  | @release n h => exact ⟨.release n, if_pos h⟩
  | post res h => exact ⟨.post res, if_pos h⟩
  | @commit n h => exact ⟨.commit n, if_pos h⟩
  | flag flags => exact ⟨.flag flags, rfl⟩

/-! ## What a run shows -/

namespace Event

/-- The request a push is called with. -/
def pushCalled? : Event → Option Request
  | .pushCalled r => some r
  | _ => none

/-- The pop that is called. -/
def popCalled? : Event → Option Pop
  | .popCalled k => some k
  | _ => none

/-- What a call of a push returns. -/
def pushResult? : Event → Option PushResult
  | .refused _ => some .queueIsFull
  | .pushEntered _ ok => some (if ok then .success else .wakeFailed)
  | _ => none

/-- What a call of a pop returns. -/
def popResult? : Event → Option PopResult
  | .popEntered _ false => some (.error (.inl .completionCheckError))
  | .cqTailLoaded false => some (.error (.inl .ringEmpty))
  | .popped _ res => some res
  | _ => none

/-- The value of `sq_head` that a push reads. -/
def headRead? : Event → Option U32
  | .refused head => some head
  | .granted head => some head
  | _ => none

/-- The slot of `sqes` or the cell of `sq_array` that a push writes. -/
def written? : Event → Option U32
  | .sqeStored index => some index
  | .arrayStored index => some index
  | _ => none

def published? : Event → Option Request
  | .published r => some r
  | _ => none

def consumed? : Event → Option Sqe
  | .consumed sqe => some sqe
  | _ => none

def released? : Event → Option Nat
  | .released n => some n
  | _ => none

def posted? : Event → Option I32
  | .posted res => some res
  | _ => none

/-- The `res` that a pop takes out of the completion ring. -/
def taken? : Event → Option I32
  | .popped rc _ => some rc
  | _ => none

end Event

/-- The values of `sq_head` that pushes read in a run, in order. -/
def headsRead (tr : List Event) : List U32 := tr.filterMap Event.headRead?

/-- The requests published in a run, in order. -/
def published (tr : List Event) : List Request := tr.filterMap Event.published?

/-- The entries the kernel read in a run, in order and as it found them. -/
def consumed (tr : List Event) : List Sqe := tr.filterMap Event.consumed?

/-- How many entries the kernel gave back in a run. -/
def released (tr : List Event) : Nat := (tr.filterMap Event.released?).sum

/-- The results the kernel posted in a run, in order. -/
def posted (tr : List Event) : List I32 := tr.filterMap Event.posted?

/-- The results that pops took in a run, in order. -/
def taken (tr : List Event) : List I32 := tr.filterMap Event.taken?

variable (tr : List Event) (e : Event)

theorem headsRead_snoc : headsRead (tr ++ [e]) = headsRead tr ++ e.headRead?.toList :=
  Lib.Run.filterMap_snoc ..

theorem published_snoc : published (tr ++ [e]) = published tr ++ e.published?.toList :=
  Lib.Run.filterMap_snoc ..

theorem released_snoc : released (tr ++ [e]) = released tr + e.released?.getD 0 := by
  unfold released
  rw [Lib.Run.filterMap_snoc, List.sum_append]
  cases e.released? <;> simp

theorem taken_snoc : taken (tr ++ [e]) = taken tr ++ e.taken?.toList :=
  Lib.Run.filterMap_snoc ..

end EventedIo

end Shclog
