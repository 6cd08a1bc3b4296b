import Shclog.EventedIo.Serving
import Mathlib.Data.List.Infix

/-! # One request at a time

A ring with never more than one request in it has a place for one: it is free, or a request waits in
it, or the kernel works on one, or there is a result to be taken. What is left of the ring is a
`Device`, and every step of the ring that keeps to this is a step of the device. -/

namespace Shclog.EventedIo

open Lib

/-- What the place for a request holds. -/
inductive Place where
  | free
  | queued (sqe : Sqe)
  | working (x : Sqe × Nat)
  | answered (x : Sqe × Nat) (res : I32)

/-- How far a push has come. -/
inductive PushStage where
  | outside
  | before (r : Request)
  | after

/-- The two threads, and the one place. -/
structure Device where
  push : PushStage
  pop : Option Pop
  place : Place

/-- The request that a push has not published yet. -/
def Pushing.request? : Pushing → Option Request
  | .tail r => some r
  | .head r _ => some r
  | .fill r _ _ => some r
  | .publish r _ => some r
  | .flags => none
  | .enter _ => none

def Pushing.pushStage (pc : Pushing) : PushStage := pc.request?.elim .after .before

def State.pushStage (s : State) : PushStage := s.push.elim .outside Pushing.pushStage

theorem State.pushStage_congr {m m' : State} (h : m'.push = m.push) : m'.pushStage = m.pushStage := by
  unfold State.pushStage
  rw [h]

/-- The request is in the ring as the place says. -/
def Serving.Holds (s : Serving) : Place → Prop
  | .free => s.ring.unread = [] ∧ s.running = [] ∧ s.ring.undelivered = []
  | .queued sqe => s.ring.unread = [sqe] ∧ s.running = [] ∧ s.ring.undelivered = []
  | .working x => s.ring.unread = [] ∧ s.running = [x] ∧ s.ring.undelivered = []
  | .answered _ res => s.ring.unread = [] ∧ s.running = [] ∧ s.ring.undelivered = [res]

/-- A ring that is in order and has one request at most. -/
structure Serving.Is (s : Serving) (d : Device) : Prop where
  sq : ∃ k, SqInv k s.ring.io.sq s.ring.push s.ring.taken
  cq : ∃ c, CqInv c s.ring.io.cq s.ring.pop s.ring.posted
  push : s.ring.pushStage = d.push
  pop : s.ring.pop.map Popping.kind = d.pop
  place : s.Holds d.place

/-- A step that shows nothing but that the ring is at work. -/
structure Event.Quiet (e : Event) : Prop where
  pushCalled : e.pushCalled? = none
  pushResult : e.pushResult? = none
  published : e.published? = none
  popCalled : e.popCalled? = none
  popResult : e.popResult? = none
  taken : e.taken? = none
  consumed : e.consumed? = none
  posted : e.posted? = none

/-- What happens to the one place. -/
inductive Device.Step : Device → Shown → Device → Prop
  | quiet {d : Device} {e : Event} (h : e.Quiet) : Step d (e, none) d
  | pushCall {pop : Option Pop} {p : Place} (r : Request) :
      Step ⟨.outside, pop, p⟩ (.pushCalled r, none) ⟨.before r, pop, p⟩
  | refused {r : Request} {pop : Option Pop} {p : Place} (head : U32) :
      Step ⟨.before r, pop, p⟩ (.refused head, none) ⟨.outside, pop, p⟩
  | published {r : Request} {pop : Option Pop} :
      Step ⟨.before r, pop, .free⟩ (.published r, none) ⟨.after, pop, .queued r.sqe⟩
  | entered {pop : Option Pop} {p : Place} (args : Enter) (ok : Bool) :
      Step ⟨.after, pop, p⟩ (.pushEntered args ok, none) ⟨.outside, pop, p⟩
  | popCall {push : PushStage} {p : Place} (k : Pop) :
      Step ⟨push, none, p⟩ (.popCalled k, none) ⟨push, some k, p⟩
  | failed {push : PushStage} {k : Pop} {p : Place} {e : Event} {err : PopError}
      (h : e.popResult? = some (.error (.inl err))) (htaken : e.taken? = none) :
      Step ⟨push, some k, p⟩ (e, none) ⟨push, none, p⟩
  | popped {push : PushStage} {k : Pop} {x : Sqe × Nat} {rc : I32} :
      Step ⟨push, some k, .answered x rc⟩ (.popped rc (k.resultOf rc), none) ⟨push, none, .free⟩
  | read {push : PushStage} {pop : Option Pop} {sqe : Sqe} (i : Nat) :
      Step ⟨push, pop, .queued sqe⟩ (.consumed sqe, some (sqe, i)) ⟨push, pop, .working (sqe, i)⟩
  | posted {push : PushStage} {pop : Option Pop} {x : Sqe × Nat} (res : I32) :
      Step ⟨push, pop, .working x⟩ (.posted res, some x) ⟨push, pop, .answered x res⟩

section

variable {q : EventedIo} {s s' : Serving} {d : Device} {e : Shown} {r : State} {x : Sqe × Nat}

theorem is_rest (hsq : q.SqSetUp) (hcq : q.CqSetUp) : (rest q).Is ⟨.outside, none, .free⟩ := by
  refine ⟨hsq.inv, hcq.inv, rfl, rfl, ?_, rfl, ?_⟩
  · show (idle q).unread = []
    rw [State.unread, List.drop_eq_nil_iff, Sq.length_pending]
    exact Nat.le_of_eq (eq_iff_toNat_sub.mp hsq.start)
  · apply List.eq_nil_of_length_eq_zero
    show (ringFrom _ _ _ _).length = 0
    rw [length_ringFrom]
    exact eq_iff_toNat_sub.mp hcq.start

/-- What a step keeps of the ring, and what is left to be seen to. -/
theorem Serving.Is.step (hd : s.Is d) {e : Event} {d' : Device} (h : Step s.ring e s'.ring)
    (hpush : s'.ring.pushStage = d'.push) (hpop : s'.ring.pop.map Popping.kind = d'.pop)
    (hplace : s'.Holds d'.place) : s'.Is d' := by
  obtain ⟨k, hsq⟩ := hd.sq
  obtain ⟨c, hcq⟩ := hd.cq
  exact ⟨⟨k, (step_sq hsq h).inv⟩, ⟨c, (step_cq hcq h).inv⟩, hpush, hpop, hplace⟩

theorem Serving.Is.unread (hd : s.Is d) {e : Event} (h : Step s.ring e r) :
    e.consumed?.toList ++ r.unread =
      s.ring.unread ++ (e.published?.map Request.sqe).toList := by
  obtain ⟨k, hsq⟩ := hd.sq
  exact (step_sq hsq h).flow

theorem Serving.Is.undelivered (hd : s.Is d) {e : Event} (h : Step s.ring e r) :
    e.taken?.toList ++ r.undelivered = s.ring.undelivered ++ e.posted?.toList := by
  obtain ⟨c, hcq⟩ := hd.cq
  exact (step_cq hcq h).flow

/-- Nothing was read, published, taken or posted. -/
theorem Serving.Is.keep (hd : s.Is d) {e : Event} (h : Step s.ring e r)
    (hconsumed : e.consumed? = none) (hpublished : e.published? = none) (htaken : e.taken? = none)
    (hposted : e.posted? = none) : ({ s with ring := r } : Serving).Holds d.place := by
  have hunread := hd.unread h
  have hundelivered := hd.undelivered h
  rw [hconsumed, hpublished] at hunread
  rw [htaken, hposted] at hundelivered
  have hunread : r.unread = s.ring.unread := by simpa using hunread
  have hundelivered : r.undelivered = s.ring.undelivered := by simpa using hundelivered
  have hplace := hd.place
  unfold Serving.Holds at *
  cases hp : d.place with
  | _ =>
      rw [hp] at hplace
      exact ⟨hunread.trans hplace.1, hplace.2.1, hundelivered.trans hplace.2.2⟩

/-- The kernel works on what the place holds. -/
theorem Serving.Is.working (hd : s.Is d) (hx : x ∈ s.running) : d.place = .working x := by
  have hplace := hd.place
  cases hp : d.place with
  | working y =>
      rw [hp] at hplace
      rw [hplace.2.1, List.mem_singleton] at hx
      rw [hx]
  | _ =>
      rw [hp] at hplace
      rw [hplace.2.1] at hx
      cases hx

/-- A request is published by the push that it is of. -/
theorem step_published {m m' : State} {e : Event} {req : Request} (h : Step m e m')
    (hpub : e.published? = some req) : m.pushStage = .before req := by
  cases h with
  | @push pc ok hp =>
      rw [State.pushStage, hp]
      cases pc with
      | head r tail =>
          simp only [pushStep] at hpub
          split at hpub <;> cases hpub
      | fill r slot todo => cases todo <;> cases hpub
      | publish r slot =>
          cases hpub
          rfl
      | _ => cases hpub
  | @pop pc ok hp =>
      cases pc with
      | tail k head =>
          simp only [popStep] at hpub
          split at hpub <;> cases hpub
      | _ => cases hpub
  | _ => cases hpub

/-- Where the kernel reads a request or posts a result, the threads stay where they are. -/
theorem step_kernel {m m' : State} {e : Event} (h : Step m e m')
    (hkernel : e.consumed? ≠ none ∨ e.posted? ≠ none) : m'.push = m.push ∧ m'.pop = m.pop := by
  cases h with
  | @push pc ok hp =>
      exfalso
      cases pc with
      | head r tail =>
          simp only [pushStep] at hkernel
          split at hkernel <;> simp [Event.consumed?, Event.posted?] at hkernel
      | fill r slot todo =>
          cases todo <;> simp [pushStep, Event.consumed?, Event.posted?] at hkernel
      | _ => simp [pushStep, Event.consumed?, Event.posted?] at hkernel
  | @pop pc ok hp =>
      exfalso
      cases pc with
      | tail k head =>
          simp only [popStep] at hkernel
          split at hkernel <;> simp [Event.consumed?, Event.posted?] at hkernel
      | _ => simp [popStep, Event.consumed?, Event.posted?] at hkernel
  | pushCall r h => simp [Event.consumed?, Event.posted?] at hkernel
  | popCall k h => simp [Event.consumed?, Event.posted?] at hkernel
  | _ => exact ⟨rfl, rfl⟩

/-! ## The kernel's steps -/

theorem Serving.Is.consume (hd : s.Is d) {sqe : Sqe} (h : Step s.ring (.consumed sqe) r) :
    ∃ d', d.Step (.consumed sqe, some (sqe, s.read)) d' ∧
      Serving.Is ⟨r, s.read + 1, s.running ++ [(sqe, s.read)]⟩ d' := by
  have hunread : sqe :: r.unread = s.ring.unread := (hd.unread h).trans (List.append_nil _)
  have hundelivered : r.undelivered = s.ring.undelivered :=
    (hd.undelivered h).trans (List.append_nil _)
  obtain ⟨hpush, hpop⟩ := step_kernel h (.inl (by simp [Event.consumed?]))
  obtain ⟨push, pop, place⟩ := d
  have hplace := hd.place
  cases place with
  | queued sqe' =>
      obtain ⟨hqueued, hrunning, hnone⟩ := hplace
      rw [hqueued, List.cons.injEq] at hunread
      obtain ⟨rfl, hread⟩ := hunread
      refine ⟨_, .read s.read, hd.step h ?_ ?_ ⟨hread, ?_, hundelivered.trans hnone⟩⟩
      · exact (State.pushStage_congr hpush).trans hd.push
      · exact (congrArg (Option.map Popping.kind) hpop).trans hd.pop
      · show s.running ++ _ = _
        rw [hrunning]
        rfl
  | _ =>
      rw [hplace.1] at hunread
      cases hunread

theorem Serving.Is.post (hd : s.Is d) {res : I32} (hx : x ∈ s.running)
    (h : Step s.ring (.posted res) r) :
    ∃ d', d.Step (.posted res, some x) d' ∧ Serving.Is ⟨r, s.read, s.running.erase x⟩ d' := by
  have hunread : r.unread = s.ring.unread := (hd.unread h).trans (List.append_nil _)
  have hundelivered : r.undelivered = s.ring.undelivered ++ [res] := hd.undelivered h
  obtain ⟨hpush, hpop⟩ := step_kernel h (.inr (by simp [Event.posted?]))
  obtain ⟨push, pop, place⟩ := d
  have hplace := hd.place
  cases place with
  | working y =>
      obtain ⟨hqueued, hrunning, hnone⟩ := hplace
      rw [hrunning, List.mem_singleton] at hx
      subst hx
      rw [hnone] at hundelivered
      refine ⟨_, .posted res, hd.step h ?_ ?_ ⟨hunread.trans hqueued, ?_, hundelivered⟩⟩
      · exact (State.pushStage_congr hpush).trans hd.push
      · exact (congrArg (Option.map Popping.kind) hpop).trans hd.pop
      · show s.running.erase x = _
        rw [hrunning]
        simp
  | _ =>
      rw [hplace.2.1] at hx
      cases hx

/-! ## The threads' steps -/

/-- A step that the place is not about. -/
theorem Serving.Is.stay (hd : s.Is d) {e : Event} {push : PushStage} {pop : Option Pop}
    (h : Step s.ring e r) (hconsumed : e.consumed? = none) (hpublished : e.published? = none)
    (htaken : e.taken? = none) (hposted : e.posted? = none) (hpush : r.pushStage = push)
    (hpop : r.pop.map Popping.kind = pop) :
    ({ s with ring := r } : Serving).Is ⟨push, pop, d.place⟩ :=
  hd.step h hpush hpop (hd.keep h hconsumed hpublished htaken hposted)

theorem Serving.Is.pushes (hd : s.Is d) {pc : Pushing} (ok : Bool) (hp : s.ring.push = some pc)
    (hfree : (pushStep s.ring ok pc).1.published? ≠ none → d.place = .free) :
    ∃ d', d.Step ((pushStep s.ring ok pc).1, none) d' ∧
      Serving.Is { s with ring := (pushStep s.ring ok pc).2 } d' := by
  have hs := EventedIo.Step.push ok hp
  have hstage : pc.pushStage = d.push := by
    rw [← hd.push, State.pushStage, hp]
    rfl
  have hpop := hd.pop
  obtain ⟨push, pop, place⟩ := d
  obtain rfl : pc.pushStage = push := hstage
  cases pc with
  | tail r =>
      exact ⟨_, .quiet ⟨rfl, rfl, rfl, rfl, rfl, rfl, rfl, rfl⟩,
        hd.stay hs rfl rfl rfl rfl rfl hpop⟩
  | head r tail =>
      simp only [pushStep] at hs ⊢
      split at hs
      · next hfull =>
          rw [if_pos hfull]
          exact ⟨_, .refused s.ring.io.sqHead, hd.stay hs rfl rfl rfl rfl rfl hpop⟩
      · next hfull =>
          rw [if_neg hfull]
          exact ⟨_, .quiet ⟨rfl, rfl, rfl, rfl, rfl, rfl, rfl, rfl⟩,
            hd.stay hs rfl rfl rfl rfl rfl hpop⟩
  | fill r slot todo =>
      cases todo with
      | nil =>
          exact ⟨_, .quiet ⟨rfl, rfl, rfl, rfl, rfl, rfl, rfl, rfl⟩,
            hd.stay hs rfl rfl rfl rfl rfl hpop⟩
      | cons st todo =>
          exact ⟨_, .quiet ⟨rfl, rfl, rfl, rfl, rfl, rfl, rfl, rfl⟩,
            hd.stay hs rfl rfl rfl rfl rfl hpop⟩
  | publish r slot =>
      obtain rfl : place = .free := hfree (Option.some_ne_none r)
      obtain ⟨hunread, hrunning, hundelivered⟩ := hd.place
      refine ⟨_, .published, hd.step hs ?_ hpop ⟨?_, hrunning, ?_⟩⟩
      · show Option.elim (some (if _ then _ else _)) _ _ = _
        split <;> rfl
      · have := hd.unread hs
        rw [hunread] at this
        exact this
      · have := hd.undelivered hs
        rw [hundelivered] at this
        exact this
  | flags =>
      refine ⟨_, .quiet ⟨rfl, rfl, rfl, rfl, rfl, rfl, rfl, rfl⟩,
        hd.stay hs rfl rfl rfl rfl rfl hpop⟩
  | enter args => exact ⟨_, .entered args ok, hd.stay hs rfl rfl rfl rfl rfl hpop⟩

theorem Serving.Is.pops (hd : s.Is d) {pc : Popping} (ok : Bool) (hp : s.ring.pop = some pc) :
    ∃ d', d.Step ((popStep s.ring ok pc).1, none) d' ∧
      Serving.Is { s with ring := (popStep s.ring ok pc).2 } d' := by
  have hs := EventedIo.Step.pop ok hp
  have hkind : some pc.kind = d.pop := by
    rw [← hd.pop, hp]
    rfl
  have hpush := hd.push
  obtain ⟨push, pop, place⟩ := d
  obtain rfl : some pc.kind = pop := hkind
  cases pc with
  | enter k =>
      cases ok with
      | true =>
          exact ⟨_, .quiet ⟨rfl, rfl, rfl, rfl, rfl, rfl, rfl, rfl⟩,
            hd.stay hs rfl rfl rfl rfl hpush rfl⟩
      | false => exact ⟨_, .failed rfl rfl, hd.stay hs rfl rfl rfl rfl hpush rfl⟩
  | head k =>
      exact ⟨_, .quiet ⟨rfl, rfl, rfl, rfl, rfl, rfl, rfl, rfl⟩,
        hd.stay hs rfl rfl rfl rfl hpush rfl⟩
  | tail k head =>
      simp only [popStep] at hs ⊢
      split at hs
      · next hempty =>
          rw [if_pos hempty]
          exact ⟨_, .failed rfl rfl, hd.stay hs rfl rfl rfl rfl hpush rfl⟩
      · next hempty =>
          rw [if_neg hempty]
          exact ⟨_, .quiet ⟨rfl, rfl, rfl, rfl, rfl, rfl, rfl, rfl⟩,
            hd.stay hs rfl rfl rfl rfl hpush rfl⟩
  | read k head =>
      exact ⟨_, .quiet ⟨rfl, rfl, rfl, rfl, rfl, rfl, rfl, rfl⟩,
        hd.stay hs rfl rfl rfl rfl hpush rfl⟩
  | release k head rc =>
      have hundelivered : rc :: (popStep s.ring ok (.release k head rc)).2.undelivered =
          s.ring.undelivered := (hd.undelivered hs).trans (List.append_nil _)
      have hplace := hd.place
      cases place with
      | answered x res =>
          obtain ⟨hunread, hrunning, hres⟩ := hplace
          rw [hres, List.cons.injEq] at hundelivered
          obtain ⟨rfl, hnil⟩ := hundelivered
          refine ⟨_, .popped, hd.step hs hpush rfl ⟨?_, hrunning, hnil⟩⟩
          exact (hd.unread hs).trans ((List.append_nil _).trans hunread)
      | _ =>
          rw [hplace.2.2] at hundelivered
          cases hundelivered

/-- **Every step of a ring with one request at most** is a step of the device. -/
theorem Serving.Is.matched (hd : s.Is d) (h : Serves s e s')
    (hfree : e.1.published? ≠ none → d.place = .free) : ∃ d', d.Step e d' ∧ s'.Is d' := by
  cases h with
  | consume h => exact hd.consume h
  | post hx h => exact hd.post hx h
  | @other e r hconsumed hposted h =>
      have hpush := hd.push
      have hpop := hd.pop
      obtain ⟨push, pop, place⟩ := d
      cases h with
      | pushCall r hp =>
          have hs := EventedIo.Step.pushCall r hp
          have hout : s.ring.pushStage = .outside := by
            rw [State.pushStage, hp]
            rfl
          obtain rfl : PushStage.outside = push := hout.symm.trans hpush
          exact ⟨_, .pushCall r, hd.stay hs rfl rfl rfl rfl rfl hpop⟩
      | push ok hp => exact hd.pushes ok hp hfree
      | popCall k hp =>
          have hs := EventedIo.Step.popCall k hp
          obtain rfl : none = pop := (congrArg (Option.map Popping.kind) hp).symm.trans hpop
          exact ⟨_, .popCall k, hd.stay hs rfl rfl rfl rfl hpush rfl⟩
      | pop ok hp => exact hd.pops ok hp
      | consume hlt => cases hconsumed
      | release hn =>
          have hs := EventedIo.Step.release hn
          exact ⟨_, .quiet ⟨rfl, rfl, rfl, rfl, rfl, rfl, rfl, rfl⟩,
            hd.stay hs rfl rfl rfl rfl hpush hpop⟩
      | post res hlt => cases hposted
      | commit hn =>
          have hs := EventedIo.Step.commit hn
          exact ⟨_, .quiet ⟨rfl, rfl, rfl, rfl, rfl, rfl, rfl, rfl⟩,
            hd.stay hs rfl rfl rfl rfl hpush hpop⟩
      | flag flags =>
          have hs := EventedIo.Step.flag (s := s.ring) flags
          exact ⟨_, .quiet ⟨rfl, rfl, rfl, rfl, rfl, rfl, rfl, rfl⟩,
            hd.stay hs rfl rfl rfl rfl hpush hpop⟩

end

/-! ## Runs -/

section

variable {q : EventedIo} {s : Serving} {tr : List Shown}

/-- With all results taken, the place is free. -/
theorem Serving.Is.free {d : Device} (hd : s.Is d) (h : s.ring.unread.length + s.running.length +
    s.ring.undelivered.length = 0) : d.place = .free := by
  have hplace := hd.place
  cases hp : d.place with
  | free => rfl
  | _ =>
      rw [hp] at hplace
      obtain ⟨hunread, hrunning, hundelivered⟩ := hplace
      rw [hunread, hrunning, hundelivered] at h
      cases h

/-- **With one request at a time, a ring is a device**: whatever its size, its counters and the order
of the steps of its threads and of the kernel. -/
theorem refines_device (hsq : q.SqSetUp) (hcq : q.CqSetUp) (h : Run Serves (rest q) tr s)
    (hone : OneAtATime (events tr)) :
    ∃ d, Run Device.Step ⟨.outside, none, .free⟩ tr d ∧ s.Is d := by
  induction h with
  | nil => exact ⟨_, .nil, is_rest hsq hcq⟩
  | @snoc tr s e s' hrun hs ih =>
      have hpre : OneAtATime (events tr) := by
        intro tr₁ htr₁
        apply hone tr₁
        rw [events_snoc]
        exact htr₁.trans (List.prefix_append _ _)
      obtain ⟨d, hd, his⟩ := ih hpre
      have hfree : e.1.published? ≠ none → d.place = .free := by
        intro hpub
        apply his.free
        have hkept := run_kept hsq hcq hrun
        have hlast := hone _ (List.prefix_refl _)
        obtain ⟨r, hr⟩ := Option.ne_none_iff_exists'.mp hpub
        have htaken : e.1.taken? = none := by
          cases he : e.1 <;> rw [he] at hr <;> first | rfl | cases hr
        rw [events_snoc, published_snoc, taken_snoc, hr, htaken] at hlast
        simp only [List.length_append, Option.toList_some, List.length_singleton,
          Option.toList_none, List.length_nil] at hlast
        omega
      obtain ⟨d', hstep, his'⟩ := his.matched hs hfree
      exact ⟨d', hd.snoc hstep, his'⟩

end

instance (tr : List Event) : Decidable (OneAtATime tr) :=
  decidable_of_iff (∀ tr₁ ∈ tr.inits, (published tr₁).length ≤ (taken tr₁).length + 1)
    (forall_congr' fun tr₁ => imp_congr_left (List.mem_inits tr₁ tr))

/-- A ring with one entry, used twice. -/
def twice : Option (List Shown × Serving) :=
  exec Serving.next (rest (fresh 0 0xFFFFFFFF false))
    ((Move.pushCall (writeFrom 0), 0) :: List.replicate 13 (.push true, 0) ++
      [(.consume, 0), (.release 1, 0), (.post 16, 0), (.commit 1, 0)] ++
      (.popCall .write, 0) :: List.replicate 5 (.pop true, 0) ++
      (.pushCall (writeFrom 16), 0) :: List.replicate 13 (.push true, 0))

theorem twice_isSome : twice.isSome = true := by decide +kernel

theorem refines_device_twice : ∃ tr s, Run Serves (rest (fresh 0 0xFFFFFFFF false)) tr s ∧
    (published (events tr)).map Request.sqe = [(writeFrom 0).sqe, (writeFrom 16).sqe] ∧
    taken (events tr) = [16] ∧
    ∃ d, Run Device.Step ⟨.outside, none, .free⟩ tr d ∧ s.Is d := by
  have h := Run.of_exec_isSome Serving.serves_of_next twice_isSome
  exact ⟨_, _, h, by decide +kernel, by decide +kernel, refines_device ⟨⟨0, by decide, rfl⟩, rfl⟩
    ⟨⟨0, by decide, rfl⟩, rfl⟩ h (by decide +kernel)⟩

end Shclog.EventedIo
