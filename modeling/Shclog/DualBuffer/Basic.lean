import Shclog.EventedIo.Device

/-! # Two buffers between the queue and the file

The program of "MPSC -> dual-buffer/memcpy WRITE", which puts the queue and the ring to use: producers
enqueue lines, and the consumer copies them into one of two buffers while the kernel writes the other
one to a file. The queue is what the three queues come down to, a list from whose front the consumer
is given an item or, at any time, nothing. A line is copied in one step; the kernel writes its bytes
one by one. The ring is a parameter, so that the program can be looked at with the ring as it is and
with what the ring comes down to. The test is built with its checks, and without its benchmarks. -/

namespace Shclog.DualBuffer

open EventedIo

/-- The constants, and where the two buffers begin. -/
structure Config where
  producers : Nat
  linesPerProducer : Nat
  maxIoBytes : Nat
  maxLineLen : Nat
  buffers : Nat
  fits : maxLineLen < maxIoBytes
  small : maxIoBytes < 2 ^ 31
  inMemory : buffers + 2 * maxIoBytes ≤ 2 ^ 64
  inFile : producers * linesPerProducer * maxLineLen < 2 ^ 63

def Config.totalLines (c : Config) : Nat := c.producers * c.linesPerProducer

/-- `buffers[b].data()`. -/
def Config.data (c : Config) (b : Bool) : Nat := c.buffers + b.toNat * c.maxIoBytes

/-- The bytes of a `Message`. -/
abbrev Message := List U8

/-- A ring: what its steps are, and which requests the kernel is working on. -/
structure Model (R : Type) where
  step : R → Shown → R → Prop
  works : R → Sqe × Nat → Prop

/-- The ring, and the device it comes down to. -/
def ring : Model Serving := ⟨Serves, fun s x => x ∈ s.running⟩
def device : Model Device := ⟨Device.Step, fun d x => d.place = .working x⟩

/-- What the consumer does next. -/
inductive Pc where
  | outer                 -- `while (consumed_lines < TOTAL_LINES)`
  | inner                 -- the loop that fills a buffer
  | got (m : Message)     -- with a message in hand
  | nothing               -- without one
  | after                 -- `if (line_count[active_buffer] == 0)`
  | reap                  -- `if (in_flight[in_flight_buffer])`
  | reaping               -- in `pop_write`
  | push                  -- about to call `push_write`
  | pushing               -- in `push_write`
  | drain (b : Bool)      -- `for (usize buffer = 0; buffer < IO_BUFFERS; ++buffer)`
  | draining (b : Bool)   -- in the `pop_write` of that loop
  | done
deriving DecidableEq

/-- The variables of the consumer, memory, the ring, how many bytes of each request the kernel has
written, the file, the queue, and what the producers have done. -/
structure State (c : Config) (R : Type) where
  pc : Pc
  lineCount : Bool → Nat
  ioBytes : Bool → Nat
  inFlight : Bool → Bool
  fileOffset : Nat
  activeBuffer : Bool
  consumedLines : Nat
  overflow : Option Message
  memory : Nat → U8
  ring : R
  written : Nat → Nat
  file : Nat → Option U8
  queue : List Message
  sent : Fin c.producers → Nat
  finished : Fin c.producers → Bool
  producersFinished : Nat

/-- What a step shows; where a call of the ring returns, whether the `CHECK` after it passes. -/
inductive Event (c : Config) where
  | enqueued (p : Fin c.producers) (m : Message)
  | finished (p : Fin c.producers)
  | dequeued (m : Option Message)
  | copied (m : Message)
  | postponed (m : Message)
  | gaveUp
  | tested
  | ring (e : Shown) (check : Bool)
  | wrote

/-- `IOSQE_FIXED_FILE`. -/
def fixedFile : U8 := 1

/-- `push_write(tmp_fd_idx, {buffers[b].data(), len}, off, IOSQE_FIXED_FILE, 0, true, b)`. -/
def Config.request (c : Config) (b : Bool) (len off : Nat) : Request :=
  .write 0 ⟨BitVec.ofNat 64 (c.data b), BitVec.ofNat 64 len⟩ (BitVec.ofNat 64 off) fixedFile 0 true
    (if b then 1 else 0)

/-- `std::memcpy`. -/
def store (memory : Nat → U8) (dest : Nat) (m : Message) : Nat → U8 := fun a =>
  if dest ≤ a ∧ a < dest + m.length then m.getD (a - dest) 0 else memory a

namespace State

variable {c : Config} {R : Type}

/-! ## The consumer -/

/-- A step of the consumer that is not about the ring. `late` is whether the time to flush has come,
`missed` whether the queue gives nothing although it holds something. -/
def consumer (s : State c R) (late missed : Bool) : Option (Event c × State c R) :=
  let active := s.activeBuffer
  match s.pc with
  | .outer =>
    if s.consumedLines < c.totalLines then
      some (.tested, { s with
        lineCount := Function.update s.lineCount active 0
        ioBytes := Function.update s.ioBytes active 0
        pc := .inner })
    else some (.tested, { s with pc := .drain false })
  | .inner =>
    if late ∨ ¬ s.ioBytes active < c.maxIoBytes ∨ ¬ s.consumedLines < c.totalLines then
      some (.tested, { s with pc := .after })
    else
      match s.overflow, s.queue, missed with
      | some m, _, _ => some (.tested, { s with overflow := none, pc := .got m })
      | none, m :: rest, false =>
        some (.dequeued (some m), { s with queue := rest, pc := .got m })
      | none, _, _ => some (.dequeued none, { s with pc := .nothing })
  | .got m =>
    if s.ioBytes active + m.length ≥ c.maxIoBytes then
      some (.postponed m, { s with overflow := some m, pc := .after })
    else
      some (.copied m, { s with
        memory := store s.memory (c.data active + s.ioBytes active) m
        ioBytes := Function.update s.ioBytes active (s.ioBytes active + m.length)
        lineCount := Function.update s.lineCount active (s.lineCount active + 1)
        consumedLines := s.consumedLines + 1
        pc := .inner })
  | .nothing =>
    if s.producersFinished = c.producers then some (.tested, { s with pc := .after })
    else some (.tested, { s with pc := .inner })
  | .after =>
    if s.lineCount active = 0 then
      if s.producersFinished = c.producers then some (.gaveUp, { s with pc := .drain false })
      else some (.tested, { s with pc := .outer })
    else some (.tested, { s with pc := .reap })
  | .reap => if s.inFlight (!active) then none else some (.tested, { s with pc := .push })
  | .drain false => if s.inFlight false then none else some (.tested, { s with pc := .drain true })
  | .drain true => if s.inFlight true then none else some (.tested, { s with pc := .done })
  | _ => none

/-- What the consumer is about to call, and where it is then. -/
def call (s : State c R) : Option (EventedIo.Event × Pc) :=
  match s.pc with
  | .reap => if s.inFlight (!s.activeBuffer) then some (.popCalled .write, .reaping) else none
  | .push =>
    some (.pushCalled (c.request s.activeBuffer (s.ioBytes s.activeBuffer) s.fileOffset), .pushing)
  | .drain b => if s.inFlight b then some (.popCalled .write, .draining b) else none
  | _ => none

/-- The buffer that `pop_write` is called for. -/
def reaped (s : State c R) : Bool :=
  match s.pc with
  | .draining b => b
  | _ => !s.activeBuffer

/-- After `push_write`. -/
def pushReturned (s : State c R) : State c R :=
  { s with
    fileOffset := s.fileOffset + s.ioBytes s.activeBuffer
    inFlight := Function.update s.inFlight s.activeBuffer true
    activeBuffer := !s.activeBuffer
    pc := .outer }

/-- After `pop_write`. -/
def popReturned (s : State c R) : State c R :=
  { s with
    inFlight := Function.update s.inFlight s.reaped false
    pc := match s.pc with
      | .draining false => .drain true
      | .draining true => .done
      | _ => .push }

/-- `CHECK(push_r == EventedIo::PushResult::Success)`, and
`CHECK(pop_r.value() == static_cast<i32>(io_bytes[..]))`. -/
def check (s : State c R) (e : EventedIo.Event) : Bool :=
  match e.pushResult?, e.popResult? with
  | some res, _ => res == .success
  | none, some (.ok n) => n == BitVec.ofNat 32 (s.ioBytes s.reaped)
  | none, some (.error _) => false
  | none, none => true

/-- The ring has made a step, and the consumer goes on if its call has returned. The kernel has
written nothing of a request that it has just read. -/
def follow (s : State c R) (e : Shown) (r : R) : State c R :=
  let s := { s with
    ring := r
    written := match e with
      | (.consumed _, some x) => Function.update s.written x.2 0
      | _ => s.written }
  if e.1.pushResult?.isSome then s.pushReturned
  else if e.1.popResult?.isSome then s.popReturned
  else s

end State

/-! ## Steps -/

/-- One step of a producer, of the consumer, of the ring, or of the kernel on a file. -/
inductive Step {c : Config} {R : Type} (M : Model R) : State c R → Event c → State c R → Prop
  | enqueue {s : State c R} {p : Fin c.producers} {m : Message} (hlen : m.length ≤ c.maxLineLen)
      (hsent : s.sent p < c.linesPerProducer) :
      Step M s (.enqueued p m) { s with
        queue := s.queue ++ [m]
        sent := Function.update s.sent p (s.sent p + 1) }
  | finish {s : State c R} {p : Fin c.producers} (hsent : s.sent p = c.linesPerProducer)
      (hfinished : s.finished p = false) :
      Step M s (.finished p) { s with
        finished := Function.update s.finished p true
        producersFinished := s.producersFinished + 1 }
  | consumer {s s' : State c R} {e : Event c} (late missed : Bool)
      (h : s.consumer late missed = some (e, s')) : Step M s e s'
  | call {s : State c R} {e : EventedIo.Event} {pc : Pc} {r : R} (h : s.call = some (e, pc))
      (hr : M.step s.ring (e, none) r) : Step M s (.ring (e, none) true) { s with ring := r, pc }
  | ring {s : State c R} {e : Shown} {r : R} (hr : M.step s.ring e r)
      (hpush : e.1.pushCalled? = none) (hpop : e.1.popCalled? = none)
      (hres : ∀ res x, e = (.posted res, some x) → res.toInt < 0 ∨ res.toNat = s.written x.2) :
      Step M s (.ring e (s.check e.1)) (s.follow e r)
  | write {s : State c R} {x : Sqe × Nat} (hx : M.works s.ring x)
      (hmore : s.written x.2 < x.1.len.toNat) :
      Step M s .wrote { s with
        file := Function.update s.file (x.1.off.toNat + s.written x.2)
          (some (s.memory (x.1.addr.toNat + s.written x.2)))
        written := Function.update s.written x.2 (s.written x.2 + 1) }

/-- Whose turn it is, and what is left open of its step. -/
inductive Turn (c : Config) where
  | enqueue (p : Fin c.producers) (m : Message)
  | finish (p : Fin c.producers)
  | consumer (late missed : Bool)
  | call
  | ring (m : Move × Nat)
  | write (n : Nat)

/-- A result is an error, or as many bytes as were written. -/
def Honest (written : Nat → Nat) : Shown → Bool
  | (.posted res, some x) => decide (res.toInt < 0 ∨ res.toNat = written x.2)
  | _ => true

/-- The step that is made in a turn. -/
def next {c : Config} (s : State c Serving) : Turn c → Option (Event c × State c Serving)
  | .enqueue p m =>
    if m.length ≤ c.maxLineLen ∧ s.sent p < c.linesPerProducer then
      some (.enqueued p m, { s with
        queue := s.queue ++ [m]
        sent := Function.update s.sent p (s.sent p + 1) })
    else none
  | .finish p =>
    if s.sent p = c.linesPerProducer ∧ s.finished p = false then
      some (.finished p, { s with
        finished := Function.update s.finished p true
        producersFinished := s.producersFinished + 1 })
    else none
  | .consumer late missed => s.consumer late missed
  | .call =>
    match s.call with
    | some (.pushCalled r, pc) =>
      (move s.ring.ring (.pushCall r)).map fun x =>
        (.ring (.pushCalled r, none) true, { s with ring := { s.ring with ring := x.2 }, pc })
    | some (.popCalled k, pc) =>
      (move s.ring.ring (.popCall k)).map fun x =>
        (.ring (.popCalled k, none) true, { s with ring := { s.ring with ring := x.2 }, pc })
    | _ => none
  | .ring m =>
    match s.ring.next m with
    | some (e, r) =>
      if e.1.pushCalled?.isNone ∧ e.1.popCalled?.isNone ∧ Honest s.written e then
        some (.ring e (s.check e.1), s.follow e r)
      else none
    | none => none
  | .write n =>
    match s.ring.running[n]? with
    | some x =>
      if s.written x.2 < x.1.len.toNat then
        some (.wrote, { s with
          file := Function.update s.file (x.1.off.toNat + s.written x.2)
            (some (s.memory (x.1.addr.toNat + s.written x.2)))
          written := Function.update s.written x.2 (s.written x.2 + 1) })
      else none
    | none => none

theorem move_pushCall {m m' : EventedIo.State} {r : Request} {e : EventedIo.Event}
    (h : move m (.pushCall r) = some (e, m')) : e = .pushCalled r := by
  rw [move] at h
  split at h <;> cases h
  rfl

theorem move_popCall {m m' : EventedIo.State} {k : Pop} {e : EventedIo.Event}
    (h : move m (.popCall k) = some (e, m')) : e = .popCalled k := by
  rw [move] at h
  split at h <;> cases h
  rfl

theorem step_of_next {c : Config} (s : State c Serving) (t : Turn c) (e : Event c)
    (s' : State c Serving) (h : next s t = some (e, s')) : Step ring s e s' := by
  cases t with
  | enqueue p m =>
      obtain ⟨⟨hlen, hsent⟩, he⟩ := Option.ite_none_right_eq_some.mp h
      cases he
      exact .enqueue hlen hsent
  | finish p =>
      obtain ⟨⟨hsent, hfinished⟩, he⟩ := Option.ite_none_right_eq_some.mp h
      cases he
      exact .finish hsent hfinished
  | consumer late missed => exact .consumer late missed h
  | call =>
      simp only [next] at h
      split at h
      · next r pc hcall =>
          obtain ⟨⟨e, m⟩, hm, he⟩ := Option.map_eq_some_iff.mp h
          cases he
          obtain rfl := move_pushCall hm
          exact .call hcall (Serves.other rfl rfl (step_of_move _ _ _ _ hm))
      · next k pc hcall =>
          obtain ⟨⟨e, m⟩, hm, he⟩ := Option.map_eq_some_iff.mp h
          cases he
          obtain rfl := move_popCall hm
          exact .call hcall (Serves.other rfl rfl (step_of_move _ _ _ _ hm))
      · cases h
  | ring m =>
      simp only [next] at h
      split at h
      · next x r hm =>
          obtain ⟨⟨hpush, hpop, hhonest⟩, he⟩ := Option.ite_none_right_eq_some.mp h
          cases he
          refine .ring (Serving.serves_of_next _ _ _ _ hm) (Option.isNone_iff_eq_none.mp hpush)
            (Option.isNone_iff_eq_none.mp hpop) ?_
          rintro res y rfl
          exact of_decide_eq_true hhonest
      · cases h
  | write n =>
      simp only [next] at h
      split at h
      · next x hx =>
          obtain ⟨hmore, he⟩ := Option.ite_none_right_eq_some.mp h
          cases he
          exact .write (M := ring) (List.mem_of_getElem? hx) hmore
      · cases h

/-- The beginning of the loop, with the ring at rest and an empty file. -/
def start (c : Config) {R : Type} (r : R) (memory : Nat → U8) : State c R where
  pc := .outer
  lineCount := fun _ => 0
  ioBytes := fun _ => 0
  inFlight := fun _ => false
  fileOffset := 0
  activeBuffer := false
  consumedLines := 0
  overflow := none
  memory := memory
  ring := r
  written := fun _ => 0
  file := fun _ => none
  queue := []
  sent := fun _ => 0
  finished := fun _ => false
  producersFinished := 0

/-! ## What a run shows -/

section

variable {c : Config}

def Event.enqueued? : Event c → Option Message
  | .enqueued _ m => some m
  | _ => none

def Event.copied? : Event c → Option Message
  | .copied m => some m
  | _ => none

/-- Whether the `CHECK` at the event passes, if there is one. -/
def Event.passes : Event c → Bool
  | .ring _ check => check
  | _ => true

/-- The messages enqueued in a run, in order, and those that were copied into a buffer. -/
def enqueued (tr : List (Event c)) : List Message := tr.filterMap Event.enqueued?
def copied (tr : List (Event c)) : List Message := tr.filterMap Event.copied?

/-- The bytes of the messages that were copied. -/
def text (tr : List (Event c)) : List U8 := (copied tr).flatten

end

end Shclog.DualBuffer
