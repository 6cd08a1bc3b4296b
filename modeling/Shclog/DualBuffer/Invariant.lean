import Shclog.DualBuffer.Basic
import Shclog.Lib.Run

/-! # Where the consumer is

The program with the ring taken for a device: what each of its steps does, and how the consumer's
place in the program goes with the device and with its own variables. -/

namespace Shclog.DualBuffer

open Lib EventedIo

variable {c : Config}

/-! ## The consumer's steps -/

/-- What a step of the consumer does that is not about the ring. -/
inductive Consumes {R : Type} (s : State c R) : Event c → State c R → Prop
  | begins (hpc : s.pc = .outer) (hmore : s.consumedLines < c.totalLines) :
      Consumes s .tested { s with
        lineCount := Function.update s.lineCount s.activeBuffer 0
        ioBytes := Function.update s.ioBytes s.activeBuffer 0
        pc := .inner }
  | ends (hpc : s.pc = .outer) (hall : ¬ s.consumedLines < c.totalLines) :
      Consumes s .tested { s with pc := .drain false }
  | flushes (hpc : s.pc = .inner) : Consumes s .tested { s with pc := .after }
  | resumes {m : Message} (hpc : s.pc = .inner) (hmore : s.consumedLines < c.totalLines)
      (hoverflow : s.overflow = some m) :
      Consumes s .tested { s with overflow := none, pc := .got m }
  | dequeues {m : Message} {rest : List Message} (hpc : s.pc = .inner)
      (hmore : s.consumedLines < c.totalLines) (hoverflow : s.overflow = none)
      (hqueue : s.queue = m :: rest) :
      Consumes s (.dequeued (some m)) { s with queue := rest, pc := .got m }
  | misses (hpc : s.pc = .inner) : Consumes s (.dequeued none) { s with pc := .nothing }
  | postpones {m : Message} (hpc : s.pc = .got m)
      (hfull : s.ioBytes s.activeBuffer + m.length ≥ c.maxIoBytes) :
      Consumes s (.postponed m) { s with overflow := some m, pc := .after }
  | copies {m : Message} (hpc : s.pc = .got m)
      (hroom : s.ioBytes s.activeBuffer + m.length < c.maxIoBytes) :
      Consumes s (.copied m) { s with
        memory := store s.memory (c.data s.activeBuffer + s.ioBytes s.activeBuffer) m
        ioBytes := Function.update s.ioBytes s.activeBuffer
          (s.ioBytes s.activeBuffer + m.length)
        lineCount := Function.update s.lineCount s.activeBuffer (s.lineCount s.activeBuffer + 1)
        consumedLines := s.consumedLines + 1
        pc := .inner }
  | retries (hpc : s.pc = .nothing) : Consumes s .tested { s with pc := .inner }
  | rests (hpc : s.pc = .nothing) : Consumes s .tested { s with pc := .after }
  | again (hpc : s.pc = .after) (hnone : s.lineCount s.activeBuffer = 0) :
      Consumes s .tested { s with pc := .outer }
  | givesUp (hpc : s.pc = .after) (hnone : s.lineCount s.activeBuffer = 0) :
      Consumes s .gaveUp { s with pc := .drain false }
  | writes (hpc : s.pc = .after) : Consumes s .tested { s with pc := .reap }
  | free (hpc : s.pc = .reap) (hother : s.inFlight (!s.activeBuffer) = false) :
      Consumes s .tested { s with pc := .push }
  | drained (hpc : s.pc = .drain false) (hfree : s.inFlight false = false) :
      Consumes s .tested { s with pc := .drain true }
  | finishes (hpc : s.pc = .drain true) (hfree : s.inFlight true = false) :
      Consumes s .tested { s with pc := .done }

theorem consumes_of_consumer {R : Type} {s s' : State c R} {e : Event c} {late missed : Bool}
    (h : s.consumer late missed = some (e, s')) : Consumes s e s' := by
  cases hpc : s.pc with
  | outer =>
      simp only [State.consumer, hpc] at h
      split at h <;> cases h
      · next hmore => exact .begins hpc hmore
      · next hall => exact .ends hpc hall
  | inner =>
      simp only [State.consumer, hpc] at h
      split at h
      · cases h
        exact .flushes hpc
      · next hgo =>
          have hmore : s.consumedLines < c.totalLines := by
            by_contra hno
            exact hgo (.inr (.inr hno))
          split at h <;> cases h
          · next hoverflow => exact .resumes hpc hmore hoverflow
          · next hoverflow hqueue => exact .dequeues hpc hmore hoverflow hqueue
          · exact .misses hpc
  | got m =>
      simp only [State.consumer, hpc] at h
      split at h <;> cases h
      · next hfull => exact .postpones hpc hfull
      · next hroom => exact .copies hpc (Nat.lt_of_not_le hroom)
  | nothing =>
      simp only [State.consumer, hpc] at h
      split at h <;> cases h
      · exact .rests hpc
      · exact .retries hpc
  | after =>
      simp only [State.consumer, hpc] at h
      split at h
      · next hnone =>
          split at h <;> cases h
          · exact .givesUp hpc hnone
          · exact .again hpc hnone
      · cases h
        exact .writes hpc
  | reap =>
      simp only [State.consumer, hpc] at h
      split at h <;> cases h
      next hother => exact .free hpc (Bool.eq_false_of_not_eq_true hother)
  | drain b =>
      cases b <;> simp only [State.consumer, hpc] at h <;> split at h <;> cases h
      · next hfree => exact .drained hpc (Bool.eq_false_of_not_eq_true hfree)
      · next hfree => exact .finishes hpc (Bool.eq_false_of_not_eq_true hfree)
  | _ => simp only [State.consumer, hpc, reduceCtorEq] at h

/-- What a step of the ring does to the program, if the `CHECK`s pass. -/
inductive RingMoves (s : State c Device) : State c Device → Prop
  | quiet : RingMoves s s
  | published {r : Request} {pop : Option Pop} (hring : s.ring = ⟨.before r, pop, .free⟩) :
      RingMoves s { s with ring := ⟨.after, pop, .queued r.sqe⟩ }
  | entered {pop : Option Pop} {p : Place} (hring : s.ring = ⟨.after, pop, p⟩) :
      RingMoves s (State.pushReturned { s with ring := ⟨.outside, pop, p⟩ })
  | popped {push : PushStage} {k : Pop} {x : Sqe × Nat} {rc : I32}
      (hring : s.ring = ⟨push, some k, .answered x rc⟩)
      (hrc : k.resultOf rc = .ok (BitVec.ofNat 32 (s.ioBytes s.reaped))) :
      RingMoves s (State.popReturned { s with ring := ⟨push, none, .free⟩ })
  | read {push : PushStage} {pop : Option Pop} {sqe : Sqe} (i : Nat)
      (hring : s.ring = ⟨push, pop, .queued sqe⟩) :
      RingMoves s { s with
        ring := ⟨push, pop, .working (sqe, i)⟩
        written := Function.update s.written i 0 }
  | posted {push : PushStage} {pop : Option Pop} {x : Sqe × Nat} {res : I32}
      (hring : s.ring = ⟨push, pop, .working x⟩)
      (hres : res.toInt < 0 ∨ res.toNat = s.written x.2) :
      RingMoves s { s with ring := ⟨push, pop, .answered x res⟩ }

theorem ringMoves_of_ring {s : State c Device} {e : Shown} {r : Device}
    (hr : Device.Step s.ring e r) (hpush : e.1.pushCalled? = none) (hpop : e.1.popCalled? = none)
    (hres : ∀ res x, e = (.posted res, some x) → res.toInt < 0 ∨ res.toNat = s.written x.2)
    (hcheck : s.check e.1 = true) : RingMoves s (s.follow e r) := by
  generalize hring : s.ring = d at hr
  cases hr with
  | @quiet d e hquiet =>
      have hsame : s.follow (e, none) s.ring = s := by
        simp only [State.follow, hquiet.pushResult, hquiet.popResult, Option.isSome_none,
          Bool.false_eq_true, if_false]
      rw [← hring, hsame]
      exact .quiet
  | pushCall r => cases hpush
  | refused head => cases hcheck
  | published => exact .published hring
  | entered args ok =>
      cases ok with
      | true => exact .entered hring
      | false => cases hcheck
  | popCall k => cases hpop
  | @failed _ _ _ e err herr htaken =>
      cases e with
      | popEntered args ok => cases ok <;> cases hcheck; cases herr
      | cqTailLoaded found => cases found <;> cases hcheck; cases herr
      | popped rc res => cases htaken
      | _ => cases herr
  | @popped push k x rc =>
      refine .popped hring ?_
      simp only [State.check, Event.pushResult?, Event.popResult?] at hcheck
      split at hcheck
      · next hsome => cases hsome
      · next _ hres =>
          rw [Option.some_inj.mp hres, eq_of_beq hcheck]
      · cases hcheck
      · next hnone => cases hnone
  | read i => exact .read i hring
  | posted res => exact .posted hring (hres _ _ rfl)

/-- What a call of the ring does to the program. -/
inductive CallMoves (s : State c Device) : State c Device → Prop
  | reap {push : PushStage} {p : Place} (hpc : s.pc = .reap)
      (hother : s.inFlight (!s.activeBuffer) = true) (hring : s.ring = ⟨push, none, p⟩) :
      CallMoves s { s with ring := ⟨push, some .write, p⟩, pc := .reaping }
  | push {pop : Option Pop} {p : Place} (hpc : s.pc = .push) (hring : s.ring = ⟨.outside, pop, p⟩) :
      CallMoves s { s with
        ring := ⟨.before (c.request s.activeBuffer (s.ioBytes s.activeBuffer) s.fileOffset), pop, p⟩
        pc := .pushing }
  | drain {b : Bool} {push : PushStage} {p : Place} (hpc : s.pc = .drain b)
      (hb : s.inFlight b = true) (hring : s.ring = ⟨push, none, p⟩) :
      CallMoves s { s with ring := ⟨push, some .write, p⟩, pc := .draining b }

theorem of_popCalled {d d' : Device} {k : Pop} (h : Device.Step d (.popCalled k, none) d') :
    ∃ push p, d = ⟨push, none, p⟩ ∧ d' = ⟨push, some k, p⟩ := by
  cases h with
  | quiet h => cases h.popCalled
  | popCall k => exact ⟨_, _, rfl, rfl⟩
  | failed herr htaken => cases herr

theorem of_pushCalled {d d' : Device} {r : Request}
    (h : Device.Step d (.pushCalled r, none) d') :
    ∃ pop p, d = ⟨.outside, pop, p⟩ ∧ d' = ⟨.before r, pop, p⟩ := by
  cases h with
  | quiet h => cases h.pushCalled
  | pushCall r => exact ⟨_, _, rfl, rfl⟩
  | failed herr htaken => cases herr

theorem callMoves_of_call {s : State c Device} {e : EventedIo.Event} {pc : Pc} {r : Device}
    (h : s.call = some (e, pc)) (hr : Device.Step s.ring (e, none) r) :
    CallMoves s { s with ring := r, pc } := by
  cases hpc : s.pc with
  | reap =>
      simp only [State.call, hpc] at h
      split at h <;> cases h
      next hother =>
        obtain ⟨push, p, hring, rfl⟩ := of_popCalled hr
        exact .reap hpc hother hring
  | push =>
      simp only [State.call, hpc] at h
      cases h
      obtain ⟨pop, p, hring, rfl⟩ := of_pushCalled hr
      exact .push hpc hring
  | drain b =>
      simp only [State.call, hpc] at h
      split at h <;> cases h
      next hb =>
        obtain ⟨push, p, hring, rfl⟩ := of_popCalled hr
        exact .drain hpc hb hring
  | _ => simp only [State.call, hpc, reduceCtorEq] at h

/-! ## Control -/

/-- What the consumer is about: it gathers lines in the active buffer, or has handed it to the
kernel without being told so yet, or neither. -/
inductive Mode where
  | gathering
  | published
  | resting

namespace State

def mode (s : State c Device) : Mode :=
  match s.pc with
  | .outer | .drain _ | .draining _ | .done => .resting
  | .pushing =>
    match s.ring.push with
    | .after => .published
    | _ => .gathering
  | _ => .gathering

/-- Where the threads of the ring are, and what is in flight, by where the consumer is. -/
def Controlled (s : State c Device) : Prop :=
  match s.pc with
  | .outer | .inner | .got _ | .nothing | .after | .reap =>
    s.ring.push = .outside ∧ s.ring.pop = none
  | .reaping =>
    s.ring.push = .outside ∧ s.ring.pop = some .write ∧ s.inFlight (!s.activeBuffer) = true
  | .push => s.ring.push = .outside ∧ s.ring.pop = none ∧ s.inFlight (!s.activeBuffer) = false
  | .pushing =>
    (s.ring.push = .before (c.request s.activeBuffer (s.ioBytes s.activeBuffer) s.fileOffset) ∨
      s.ring.push = .after) ∧ s.ring.pop = none ∧ s.inFlight (!s.activeBuffer) = false
  | .drain b =>
    s.ring.push = .outside ∧ s.ring.pop = none ∧ (b = true → s.inFlight false = false)
  | .draining b =>
    s.ring.push = .outside ∧ s.ring.pop = some .write ∧ s.inFlight b = true ∧
      (b = true → s.inFlight false = false)
  | .done => s.ring.push = .outside ∧ s.ring.pop = none ∧ ∀ b, s.inFlight b = false

end State

/-- What holds of the consumer's variables. -/
structure Control (s : State c Device) : Prop where
  pc : s.Controlled
  active : s.inFlight s.activeBuffer = false
  room : ∀ b, s.ioBytes b < c.maxIoBytes
  empty : s.mode = .gathering → s.lineCount s.activeBuffer = 0 → s.ioBytes s.activeBuffer = 0

section

variable {R : Type} {s s' : State c Device} {e : Event c}

theorem Control.consumes (hc : Control s) (h : Consumes s e s') : Control s' := by
  obtain ⟨hpc, hactive, hroom, hempty⟩ := hc
  unfold State.Controlled at hpc
  have hpos : 0 < c.maxIoBytes := Nat.lt_of_le_of_lt (Nat.zero_le _) c.fits
  cases h with
  | begins hs hmore =>
      rw [hs] at hpc
      refine ⟨hpc, hactive, ?_, ?_⟩
      · intro b
        show Function.update s.ioBytes s.activeBuffer 0 b < _
        by_cases hb : b = s.activeBuffer
        · rwa [hb, Function.update_self]
        · rw [Function.update_of_ne hb]
          exact hroom b
      · intro _ _
        exact Function.update_self ..
  | ends hs hall =>
      rw [hs] at hpc
      exact ⟨⟨hpc.1, hpc.2, by simp⟩, hactive, hroom, fun h => by cases h⟩
  | copies hs hfits =>
      rw [hs] at hpc
      refine ⟨hpc, hactive, ?_, ?_⟩
      · intro b
        show Function.update s.ioBytes s.activeBuffer _ b < _
        by_cases hb : b = s.activeBuffer
        · rwa [hb, Function.update_self]
        · rw [Function.update_of_ne hb]
          exact hroom b
      · intro _ hzero
        have hzero : Function.update s.lineCount s.activeBuffer
            (s.lineCount s.activeBuffer + 1) s.activeBuffer = 0 := hzero
        rw [Function.update_self] at hzero
        cases hzero
  | again hs hnone =>
      rw [hs] at hpc
      exact ⟨hpc, hactive, hroom, fun h => by cases h⟩
  | givesUp hs hnone =>
      rw [hs] at hpc
      exact ⟨⟨hpc.1, hpc.2, by simp⟩, hactive, hroom, fun h => by cases h⟩
  | free hs hother =>
      rw [hs] at hpc
      refine ⟨⟨hpc.1, hpc.2, hother⟩, hactive, hroom, ?_⟩
      intro _
      exact hempty (by rw [State.mode, hs])
  | drained hs hfree =>
      rw [hs] at hpc
      exact ⟨⟨hpc.1, hpc.2.1, fun _ => hfree⟩, hactive, hroom, fun h => by cases h⟩
  | finishes hs hfree =>
      rw [hs] at hpc
      refine ⟨⟨hpc.1, hpc.2.1, ?_⟩, hactive, hroom, fun h => by cases h⟩
      intro b
      cases b
      · exact hpc.2.2 rfl
      · exact hfree
  | flushes hs | resumes hs | dequeues hs | misses hs | postpones hs | retries hs | rests hs
  | writes hs =>
      rw [hs] at hpc
      refine ⟨hpc, hactive, hroom, ?_⟩
      intro _
      exact hempty (by rw [State.mode, hs])

theorem Control.call (hc : Control s) (h : CallMoves s s') : Control s' := by
  obtain ⟨hpc, hactive, hroom, hempty⟩ := hc
  unfold State.Controlled at hpc
  cases h with
  | reap hs hother hring =>
      rw [hs, hring] at hpc
      refine ⟨⟨hpc.1, rfl, hother⟩, hactive, hroom, ?_⟩
      intro _
      exact hempty (by rw [State.mode, hs])
  | push hs hring =>
      rw [hs, hring] at hpc
      refine ⟨⟨.inl rfl, hpc.2⟩, hactive, hroom, ?_⟩
      intro _
      exact hempty (by rw [State.mode, hs])
  | drain hs hb hring =>
      rw [hs, hring] at hpc
      exact ⟨⟨hpc.1, rfl, hb, hpc.2.2⟩, hactive, hroom, fun h => by cases h⟩

/-- The consumer is in `push_write`, and the request is published. -/
theorem Control.pushing_of_after (hc : Control s) (h : s.ring.push = .after) :
    s.pc = .pushing := by
  have hpc := hc.pc
  unfold State.Controlled at hpc
  cases hs : s.pc with
  | pushing => rfl
  | _ => rw [hs, h] at hpc; cases hpc.1

theorem Control.pushing_of_before (hc : Control s) {r : Request} (h : s.ring.push = .before r) :
    s.pc = .pushing ∧
      r = c.request s.activeBuffer (s.ioBytes s.activeBuffer) s.fileOffset := by
  have hpc := hc.pc
  unfold State.Controlled at hpc
  cases hs : s.pc with
  | pushing =>
      rw [hs, h] at hpc
      rcases hpc.1 with heq | heq
      · cases heq
        exact ⟨rfl, rfl⟩
      · cases heq
  | _ => rw [hs, h] at hpc; cases hpc.1

/-- The consumer is in a `pop_write`. -/
theorem Control.popping (hc : Control s) {k : Pop} (h : s.ring.pop = some k) :
    k = .write ∧ s.ring.push = .outside ∧ s.inFlight s.reaped = true ∧
      s.reaped = (!s.activeBuffer) ∧ (s.pc = .reaping ∨
        ∃ b, s.pc = .draining b ∧ (b = true → s.inFlight false = false)) := by
  have hpc := hc.pc
  unfold State.Controlled at hpc
  unfold State.reaped
  cases hs : s.pc with
  | reaping =>
      rw [hs, h] at hpc
      exact ⟨Option.some_inj.mp hpc.2.1, hpc.1, hpc.2.2, rfl, .inl rfl⟩
  | draining b =>
      rw [hs, h] at hpc
      refine ⟨Option.some_inj.mp hpc.2.1, hpc.1, hpc.2.2.1, ?_, .inr ⟨b, rfl, hpc.2.2.2⟩⟩
      show b = _
      have hne : b ≠ s.activeBuffer := by
        rintro rfl
        have hout := hpc.2.2.1
        rw [hc.active] at hout
        cases hout
      exact Bool.eq_not_of_ne hne
  | pushing => rw [hs, h] at hpc; cases hpc.2.1
  | push => rw [hs, h] at hpc; cases hpc.2.1
  | drain b => rw [hs, h] at hpc; cases hpc.2.1
  | done => rw [hs, h] at hpc; cases hpc.2.1
  | _ => rw [hs, h] at hpc; cases hpc.2

/-- What the place holds is not the consumer's business. -/
theorem Control.place (hc : Control s) {push : PushStage} {pop : Option Pop} {p p' : Place}
    (hring : s.ring = ⟨push, pop, p⟩) (written : Nat → Nat) :
    Control { s with ring := ⟨push, pop, p'⟩, written } := by
  obtain ⟨hpc, hactive, hroom, hempty⟩ := hc
  unfold State.Controlled at hpc
  unfold State.mode at hempty
  rw [hring] at hpc hempty
  exact ⟨hpc, hactive, hroom, hempty⟩

theorem Control.ring (hc : Control s) (h : RingMoves s s') : Control s' := by
  cases h with
  | quiet => exact hc
  | published hring =>
      obtain ⟨hs, -⟩ := hc.pushing_of_before (congrArg Device.push hring)
      have hpc := hc.pc
      unfold State.Controlled at hpc
      rw [hs, hring] at hpc
      refine ⟨?_, hc.active, hc.room, ?_⟩
      · unfold State.Controlled
        rw [show State.pc _ = .pushing from hs]
        exact ⟨.inr rfl, hpc.2⟩
      · intro hmode
        rw [State.mode, show State.pc _ = .pushing from hs] at hmode
        cases hmode
  | entered hring =>
      have hs := hc.pushing_of_after (congrArg Device.push hring)
      have hpc := hc.pc
      unfold State.Controlled at hpc
      rw [hs, hring] at hpc
      refine ⟨⟨rfl, hpc.2.1⟩, ?_, hc.room, fun h => by cases h⟩
      show Function.update s.inFlight s.activeBuffer true (!s.activeBuffer) = false
      rw [Function.update_of_ne (by simp)]
      exact hpc.2.2
  | popped hring hrc =>
      obtain ⟨-, hpush, -, hreaped, hs⟩ := hc.popping (congrArg Device.pop hring)
      rw [hring] at hpush
      have hactive : Function.update s.inFlight s.reaped false s.activeBuffer = false := by
        by_cases hb : s.activeBuffer = s.reaped
        · rw [hb, Function.update_self]
        · rw [Function.update_of_ne hb]
          exact hc.active
      rcases hs with hs | ⟨b, hs, hdrain⟩
      · refine ⟨?_, hactive, hc.room, ?_⟩
        · unfold State.Controlled State.popReturned
          dsimp only
          rw [hs]
          exact ⟨hpush, rfl, Function.update_self ..⟩
        · intro _
          exact hc.empty (by rw [State.mode, hs])
      · refine ⟨?_, hactive, hc.room, ?_⟩
        · unfold State.Controlled State.popReturned
          dsimp only
          rw [hs]
          cases b with
          | false =>
              exact ⟨hpush, rfl, fun _ => Function.update_self ..⟩
          | true =>
              refine ⟨hpush, rfl, ?_⟩
              intro b'
              cases b' with
              | false => exact (Function.update_of_ne Bool.false_ne_true ..).trans (hdrain rfl)
              | true => exact Function.update_self ..
        · intro hmode
          unfold State.mode State.popReturned at hmode
          dsimp only at hmode
          rw [hs] at hmode
          cases b <;> cases hmode
  | read i hring => exact hc.place hring _
  | posted hring hres => exact hc.place hring _

end

end Shclog.DualBuffer
