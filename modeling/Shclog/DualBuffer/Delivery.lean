import Shclog.DualBuffer.Parts
import Shclog.Lib.Tally
import Mathlib.Algebra.Order.BigOperators.Group.Finset

/-! # From the queue to the file

Every line that was enqueued is copied, in hand, put aside, or in the queue; those that were copied
are, byte for byte and in the order of the queue, in the file or on their way to it. Both are known
of the program with a device, and hence of the program with a ring. -/

namespace Shclog.DualBuffer

open Lib EventedIo

variable {c : Config}

/-! ## Lines -/

def Pc.hand : Pc → Option Message
  | .got m => some m
  | _ => none

/-- The loop over the lines is over. -/
def Pc.ended : Pc → Bool
  | .drain _ | .draining _ | .done => true
  | _ => false

/-- The lines that were not copied, the next one first. -/
def State.waiting {R : Type} (s : State c R) : List Message :=
  s.pc.hand.toList ++ s.overflow.toList ++ s.queue

/-- Where the lines are that were enqueued. -/
structure Accounts {R : Type} (tr : List (Event c)) (s : State c R) : Prop where
  order : copied tr ++ s.waiting = enqueued tr
  hand : s.pc.hand ≠ none → s.overflow = none ∧ s.consumedLines < c.totalLines
  lines : s.consumedLines = (copied tr).length
  bound : s.consumedLines ≤ c.totalLines
  short : ∀ m ∈ enqueued tr, m.length ≤ c.maxLineLen
  sent : (enqueued tr).length = load s.sent id
  each : ∀ p, s.sent p ≤ c.linesPerProducer
  ended : s.pc.ended = true → .gaveUp ∈ tr ∨ s.consumedLines = c.totalLines

section

variable {R : Type} {s s' : State c R} {tr : List (Event c)} {e : Event c}

theorem enqueued_snoc (tr : List (Event c)) (e : Event c) :
    enqueued (tr ++ [e]) = enqueued tr ++ e.enqueued?.toList :=
  Run.filterMap_snoc ..

theorem copied_snoc (tr : List (Event c)) (e : Event c) :
    copied (tr ++ [e]) = copied tr ++ e.copied?.toList :=
  Run.filterMap_snoc ..

theorem text_copied (tr : List (Event c)) (m : Message) :
    text (tr ++ [.copied m]) = text tr ++ m := by
  rw [text, copied_snoc, List.flatten_append]
  exact congrArg _ List.flatten_singleton

theorem text_other (h : e.copied? = none) : text (tr ++ [e]) = text tr := by
  rw [text, copied_snoc, h]
  exact congrArg _ (List.append_nil _)

/-- A step by which no line comes and none is copied. -/
theorem Accounts.move (ha : Accounts tr s) (henqueued : e.enqueued? = none)
    (hcopied : e.copied? = none) (hwaiting : s'.waiting = s.waiting)
    (hhand : s'.pc.hand ≠ none → s'.overflow = none ∧ s'.consumedLines < c.totalLines)
    (hlines : s'.consumedLines = s.consumedLines) (hsent : s'.sent = s.sent)
    (hover : s'.pc.ended = true →
      s.pc.ended = true ∨ e = .gaveUp ∨ s.consumedLines = c.totalLines) :
    Accounts (tr ++ [e]) s' := by
  obtain ⟨horder, -, hcount, hbound, hshort, htotal, heach, hold⟩ := ha
  have henq : enqueued (tr ++ [e]) = enqueued tr := by
    rw [enqueued_snoc, henqueued]
    exact List.append_nil _
  have hcop : copied (tr ++ [e]) = copied tr := by
    rw [copied_snoc, hcopied]
    exact List.append_nil _
  refine ⟨?_, hhand, ?_, ?_, ?_, ?_, ?_, ?_⟩
  · rw [henq, hcop, hwaiting]
    exact horder
  · rw [hlines, hcop]
    exact hcount
  · rw [hlines]
    exact hbound
  · rw [henq]
    exact hshort
  · rw [henq, hsent]
    exact htotal
  · rw [hsent]
    exact heach
  · intro h
    rw [hlines, List.mem_append, List.mem_singleton]
    rcases hover h with hs | rfl | hall
    · exact (hold hs).imp_left .inl
    · exact .inl (.inr rfl)
    · exact .inr hall

/-- A step that no line takes part in. -/
theorem Accounts.frame (ha : Accounts tr s) (henqueued : e.enqueued? = none)
    (hcopied : e.copied? = none) (hhand : s'.pc.hand = s.pc.hand)
    (hoverflow : s'.overflow = s.overflow) (hqueue : s'.queue = s.queue)
    (hlines : s'.consumedLines = s.consumedLines) (hsent : s'.sent = s.sent)
    (hover : s'.pc.ended = true →
      s.pc.ended = true ∨ e = .gaveUp ∨ s.consumedLines = c.totalLines) :
    Accounts (tr ++ [e]) s' := by
  refine ha.move henqueued hcopied ?_ ?_ hlines hsent hover
  · rw [State.waiting, hhand, hoverflow, hqueue]
    rfl
  · rw [hhand, hoverflow, hlines]
    exact ha.hand

/-- **A step of the consumer.** -/
theorem Accounts.consumes (ha : Accounts tr s) (h : Consumes s e s') :
    Accounts (tr ++ [e]) s' := by
  cases h with
  | ends hpc hall =>
      refine ha.frame rfl rfl (by rw [hpc]; rfl) rfl rfl rfl rfl fun _ => .inr (.inr ?_)
      exact Nat.le_antisymm ha.bound (Nat.le_of_not_lt hall)
  | givesUp hpc hnone =>
      exact ha.frame rfl rfl (by rw [hpc]; rfl) rfl rfl rfl rfl fun _ => .inr (.inl rfl)
  | drained hpc hfree =>
      exact ha.frame rfl rfl (by rw [hpc]; rfl) rfl rfl rfl rfl fun _ => .inl (by rw [hpc]; rfl)
  | finishes hpc hfree =>
      exact ha.frame rfl rfl (by rw [hpc]; rfl) rfl rfl rfl rfl fun _ => .inl (by rw [hpc]; rfl)
  | resumes hpc hmore hoverflow =>
      refine ha.move rfl rfl ?_ (fun _ => ⟨rfl, hmore⟩) rfl rfl fun h => by cases h
      unfold State.waiting
      rw [hpc, hoverflow]
      rfl
  | dequeues hpc hmore hoverflow hqueue =>
      refine ha.move rfl rfl ?_ (fun _ => ⟨hoverflow, hmore⟩) rfl rfl fun h => by cases h
      unfold State.waiting
      rw [hpc, hoverflow, hqueue]
      rfl
  | postpones hpc hfull =>
      have hnone := (ha.hand (by rw [hpc]; exact Option.some_ne_none _)).1
      refine ha.move rfl rfl ?_ (fun h => absurd rfl h) rfl rfl fun h => by cases h
      unfold State.waiting
      rw [hpc, hnone]
      rfl
  | @copies m hpc hroom =>
      obtain ⟨hnone, hmore⟩ := ha.hand (by rw [hpc]; exact Option.some_ne_none _)
      have henq : enqueued (tr ++ [.copied m]) = enqueued tr := by
        rw [enqueued_snoc]
        exact List.append_nil _
      have hcop : copied (tr ++ [.copied m]) = copied tr ++ [m] := copied_snoc ..
      refine ⟨?_, fun h => absurd rfl h, ?_, hmore, henq ▸ ha.short, henq ▸ ha.sent, ha.each,
        fun h => by cases h⟩
      · rw [henq, hcop, ← ha.order]
        unfold State.waiting
        rw [hpc, hnone]
        simp [Pc.hand]
      · rw [hcop, List.length_append, ← ha.lines]
        rfl
  | begins hpc | flushes hpc | misses hpc | retries hpc | rests hpc | again hpc | writes hpc
  | free hpc =>
      exact ha.frame rfl rfl (by rw [hpc]; rfl) rfl rfl rfl rfl fun h => by cases h

theorem Accounts.enqueue (ha : Accounts tr s) {p : Fin c.producers} {m : Message}
    (hlen : m.length ≤ c.maxLineLen) (hsent : s.sent p < c.linesPerProducer) :
    Accounts (tr ++ [.enqueued p m]) { s with
      queue := s.queue ++ [m]
      sent := Function.update s.sent p (s.sent p + 1) } := by
  have henq : enqueued (tr ++ [.enqueued p m]) = enqueued tr ++ [m] := enqueued_snoc ..
  have hcop : copied (tr ++ [.enqueued p m]) = copied tr := by
    rw [copied_snoc]
    exact List.append_nil _
  refine ⟨?_, ha.hand, ?_, ha.bound, ?_, ?_, ?_, ?_⟩
  · rw [henq, hcop, ← ha.order]
    unfold State.waiting
    simp only [List.append_assoc]
  · rw [hcop]
    exact ha.lines
  · rw [henq]
    intro m' hm'
    rcases List.mem_append.mp hm' with hold | hnew
    · exact ha.short m' hold
    · rw [List.mem_singleton.mp hnew]
      exact hlen
  · rw [henq, List.length_append, ha.sent]
    have hload := load_update s.sent id p (s.sent p + 1)
    simp only [id_eq] at hload
    show load s.sent id + 1 = load (Function.update s.sent p _) id
    omega
  · intro p'
    show Function.update s.sent p _ p' ≤ _
    by_cases hp : p' = p
    · rw [hp, Function.update_self]
      exact hsent
    · rw [Function.update_of_ne hp]
      exact ha.each p'
  · intro h
    exact (ha.ended h).imp_left (List.mem_append_left _)

/-- **The lines that were copied are all of them** if they are as many as there are to be. -/
theorem Accounts.all (ha : Accounts tr s) (h : s.consumedLines = c.totalLines) :
    copied tr = enqueued tr := by
  have hle : (enqueued tr).length ≤ c.totalLines := by
    rw [ha.sent]
    calc load s.sent id
      _ ≤ Finset.univ.card • c.linesPerProducer :=
          Finset.sum_le_card_nsmul _ _ _ fun p _ => ha.each p
      _ = c.totalLines := by
          rw [Finset.card_fin]
          rfl
  have horder := ha.order
  have hwaiting : s.waiting = [] := by
    apply List.eq_nil_of_length_eq_zero
    have hlen := congrArg List.length horder
    rw [List.length_append, ← ha.lines] at hlen
    omega
  rwa [hwaiting, List.append_nil] at horder

/-- What was copied fits into a file. -/
theorem Accounts.length_text (ha : Accounts tr s) : (text tr).length < 2 ^ 63 := by
  have hshort : ∀ m ∈ copied tr, m.length ≤ c.maxLineLen := by
    intro m hm
    apply ha.short
    rw [← ha.order]
    exact List.mem_append_left _ hm
  have hsum : ∀ l : List Message, (∀ m ∈ l, m.length ≤ c.maxLineLen) →
      l.flatten.length ≤ l.length * c.maxLineLen := by
    intro l hl
    induction l with
    | nil => exact Nat.zero_le _
    | cons m l ih =>
        have hm := hl m List.mem_cons_self
        have := ih fun m' hm' => hl m' (List.mem_cons_of_mem _ hm')
        rw [List.flatten_cons, List.length_append, List.length_cons, Nat.add_mul]
        omega
  calc (text tr).length
    _ ≤ (copied tr).length * c.maxLineLen := hsum _ hshort
    _ ≤ c.totalLines * c.maxLineLen := Nat.mul_le_mul_right _ (ha.lines ▸ ha.bound)
    _ < 2 ^ 63 := c.inFile

theorem Accounts.settled (ha : Accounts tr s) {settled flying filling : List U8}
    (hl : text tr = settled ++ flying ++ filling) : settled.length < 2 ^ 64 := by
  have := ha.length_text
  rw [hl] at this
  simp only [List.length_append] at this
  omega

end

/-! ## With a device -/

/-- What holds of the program with a device. -/
structure Inv (tr : List (Event c)) (s : State c Device) : Prop where
  accounts : Accounts tr s
  control : Control s
  parts : Parts s (text tr)

section

variable {s s' : State c Device} {tr : List (Event c)} {e : Event c}

/-- A step that changes nothing of the bytes. -/
theorem Parts.frame {l : List U8} (hp : Parts s l) (hmode : s'.mode = s.mode)
    (hstorage : s'.storage = s.storage) : Parts s' l := by
  obtain ⟨settled, flying, filling, hl, hsplit⟩ := hp
  refine ⟨settled, flying, filling, hl, ?_⟩
  rw [hmode, hstorage]
  exact hsplit

theorem Parts.consumes (hp : Parts s (text tr)) (hc : Control s) (h : Consumes s e s') :
    Parts s' (text (tr ++ [e])) := by
  cases h with
  | begins hpc hmore =>
      obtain ⟨settled, flying, filling, hl, hsplit⟩ := hp
      rw [State.mode, hpc] at hsplit
      obtain rfl : filling = [] := hsplit.active
      refine ⟨settled, flying, [], ?_, hsplit.begin⟩
      rw [text_other rfl, hl]
  | copies hpc hroom =>
      obtain ⟨settled, flying, filling, hl, hsplit⟩ := hp
      rw [State.mode, hpc] at hsplit
      refine ⟨settled, flying, _, ?_, hsplit.copy hc.room hroom⟩
      rw [text_copied, hl, List.append_assoc]
  | again hpc hnone | givesUp hpc hnone =>
      have hmode : s.mode = .gathering := by rw [State.mode, hpc]
      obtain ⟨settled, flying, filling, hl, hsplit⟩ := hp
      rw [hmode] at hsplit
      obtain rfl := hsplit.filling_eq_nil (hc.empty hmode hnone)
      refine ⟨settled, flying, [], ?_, hsplit.rest⟩
      rw [text_other rfl, hl]
  | ends hpc | drained hpc | finishes hpc =>
      have hmode : s.mode = .resting := by rw [State.mode, hpc]
      rw [text_other rfl]
      exact hp.frame hmode.symm rfl
  | flushes hpc | resumes hpc | dequeues hpc | misses hpc | postpones hpc | retries hpc
  | rests hpc | writes hpc | free hpc =>
      have hmode : s.mode = .gathering := by rw [State.mode, hpc]
      rw [text_other rfl]
      exact hp.frame hmode.symm rfl

theorem Parts.call {l : List U8} (hp : Parts s l) (h : CallMoves s s') : Parts s' l := by
  cases h with
  | reap hpc hother hring =>
      have hmode : s.mode = .gathering := by rw [State.mode, hpc]
      refine hp.frame hmode.symm ?_
      unfold State.storage
      rw [hring]
  | push hpc hring =>
      have hmode : s.mode = .gathering := by rw [State.mode, hpc]
      refine hp.frame hmode.symm ?_
      unfold State.storage
      rw [hring]
  | drain hpc hb hring =>
      have hmode : s.mode = .resting := by rw [State.mode, hpc]
      refine hp.frame hmode.symm ?_
      unfold State.storage
      rw [hring]

theorem mode_popReturned (d : Device) (hs : s.pc = .reaping ∨
    ∃ b, s.pc = .draining b ∧ (b = true → s.inFlight false = false)) :
    s.mode ≠ .published ∧ (State.popReturned { s with ring := d }).mode = s.mode := by
  unfold State.mode State.popReturned
  dsimp only
  rcases hs with hpc | ⟨b, hpc, -⟩
  · rw [hpc]
    exact ⟨Mode.noConfusion, rfl⟩
  · rw [hpc]
    cases b <;> exact ⟨Mode.noConfusion, rfl⟩

theorem storage_popReturned (s : State c Device) (d : Device) :
    (State.popReturned { s with ring := d }).storage = { s.storage with
      inFlight := Function.update s.inFlight s.reaped false
      place := d.place } := rfl

theorem Parts.ring {l : List U8} (hp : Parts s l) (hc : Control s) (h : RingMoves s s') :
    Parts s' l := by
  obtain ⟨settled, flying, filling, hl, hsplit⟩ := hp
  cases h with
  | quiet => exact ⟨settled, flying, filling, hl, hsplit⟩
  | published hring =>
      obtain ⟨hpc, rfl⟩ := hc.pushing_of_before (congrArg Device.push hring)
      have hmode : s.mode = .gathering := by rw [State.mode, hpc, hring]
      have hother := hc.pc
      rw [State.Controlled, hpc] at hother
      rw [hmode] at hsplit
      obtain rfl := hsplit.flying_eq_nil hother.2.2
      refine ⟨settled, filling, [], by simpa using hl, ?_⟩
      unfold State.mode
      dsimp only
      rw [hpc]
      exact hsplit.publish
  | entered hring =>
      have hpc := hc.pushing_of_after (congrArg Device.push hring)
      have hmode : s.mode = .published := by rw [State.mode, hpc, hring]
      rw [hmode] at hsplit
      obtain rfl : filling = [] := hsplit.active
      have hplace : s.ring.place = _ := congrArg Device.place hring
      refine ⟨settled, flying, [], hl, ?_⟩
      have := hsplit.enter
      unfold State.storage at this
      rw [hplace] at this
      exact this
  | @popped push _ _ _ hring hrc =>
      obtain ⟨rfl, -, hout, hreaped, hs⟩ := hc.popping (congrArg Device.pop hring)
      obtain ⟨hpos, hsame⟩ := Pop.resultOf_ok_iff.mp hrc
      rw [hreaped] at hout hsame
      have hlen : _ = s.ioBytes (!s.activeBuffer) :=
        (congrArg BitVec.toNat hsame).symm.trans (toNat_ioBytes (hc.room _))
      have hplace : s.ring.place = _ := congrArg Device.place hring
      obtain ⟨hmode, hkept⟩ := mode_popReturned ⟨push, none, .free⟩ hs
      refine ⟨settled ++ flying, [], filling, by rw [hl, List.append_nil], ?_⟩
      rw [hkept, storage_popReturned, hreaped]
      exact hsplit.reap hmode hout hplace hpos hlen
  | read i hring =>
      refine ⟨settled, flying, filling, hl, ?_⟩
      have hplace : s.ring.place = _ := congrArg Device.place hring
      have := hsplit.read i hplace
      unfold State.mode at this ⊢
      rw [hring] at this
      exact this
  | posted hring hres =>
      refine ⟨settled, flying, filling, hl, ?_⟩
      have hplace : s.ring.place = _ := congrArg Device.place hring
      have := hsplit.answer hplace hres
      unfold State.mode at this ⊢
      rw [hring] at this
      exact this

/-- The calls of the ring and what it does are not about lines. -/
theorem Accounts.call (ha : Accounts tr s) (h : CallMoves s s') {x : EventedIo.Event} :
    Accounts (tr ++ [.ring (x, none) true]) s' := by
  cases h with
  | reap hpc | push hpc =>
      exact ha.frame rfl rfl (by rw [hpc]; rfl) rfl rfl rfl rfl fun h => by cases h
  | drain hpc =>
      exact ha.frame rfl rfl (by rw [hpc]; rfl) rfl rfl rfl rfl fun _ => .inl (by rw [hpc]; rfl)

theorem Accounts.ring (ha : Accounts tr s) (hc : Control s) (h : RingMoves s s') {x : Shown}
    {check : Bool} : Accounts (tr ++ [.ring x check]) s' := by
  cases h with
  | quiet | published | read | posted =>
      exact ha.frame rfl rfl rfl rfl rfl rfl rfl .inl
  | entered hring =>
      have hpc := hc.pushing_of_after (congrArg Device.push hring)
      exact ha.frame rfl rfl (by rw [hpc]; rfl) rfl rfl rfl rfl fun h => by cases h
  | popped hring =>
      obtain ⟨-, -, -, -, hpc | ⟨b, hpc, -⟩⟩ := hc.popping (congrArg Device.pop hring)
      · refine ha.frame rfl rfl ?_ rfl rfl rfl rfl ?_
        · rw [State.popReturned, hpc]
          rfl
        · intro h
          rw [State.popReturned, hpc] at h
          cases h
      · refine ha.frame rfl rfl ?_ rfl rfl rfl rfl fun _ => .inl (by rw [hpc]; rfl)
        rw [State.popReturned, hpc]
        cases b <;> rfl

/-- **Every step**, if the `CHECK` after it passes. -/
theorem Inv.step (hi : Inv tr s) (h : Step device s e s') (hpasses : e.passes = true) :
    Inv (tr ++ [e]) s' := by
  obtain ⟨ha, hc, hp⟩ := hi
  cases h with
  | enqueue hlen hsent =>
      refine ⟨ha.enqueue hlen hsent, ⟨hc.pc, hc.active, hc.room, hc.empty⟩, ?_⟩
      rw [text_other rfl]
      exact hp
  | finish hsent hfinished =>
      refine ⟨ha.frame rfl rfl rfl rfl rfl rfl rfl .inl, ⟨hc.pc, hc.active, hc.room, hc.empty⟩, ?_⟩
      rw [text_other rfl]
      exact hp
  | consumer late missed h =>
      have h := consumes_of_consumer h
      exact ⟨ha.consumes h, hc.consumes h, hp.consumes hc h⟩
  | call h hr =>
      have h := callMoves_of_call h hr
      refine ⟨ha.call h, hc.call h, ?_⟩
      rw [text_other rfl]
      exact hp.call h
  | ring hr hpush hpop hres =>
      have h := ringMoves_of_ring hr hpush hpop hres hpasses
      refine ⟨ha.ring hc h, hc.ring h, ?_⟩
      rw [text_other rfl]
      exact hp.ring hc h
  | write hx hmore =>
      refine ⟨ha.frame rfl rfl rfl rfl rfl rfl rfl .inl, ⟨hc.pc, hc.active, hc.room, hc.empty⟩, ?_⟩
      rw [text_other rfl]
      obtain ⟨settled, flying, filling, hl, hsplit⟩ := hp
      exact ⟨settled, flying, filling, hl, hsplit.write hx hc.room (ha.settled hl) hmore⟩

theorem inv_start (d : Device) (hpush : d.push = .outside) (hpop : d.pop = none)
    (hplace : d.place = .free) (memory : Nat → U8) : Inv [] (start c d memory) := by
  have hpos : 0 < c.maxIoBytes := Nat.lt_of_le_of_lt (Nat.zero_le _) c.fits
  refine ⟨?_, ⟨⟨hpush, hpop⟩, rfl, fun _ => hpos, fun _ _ => rfl⟩, ?_⟩
  · refine ⟨rfl, fun h => absurd rfl h, rfl, Nat.zero_le _, fun m hm => (List.not_mem_nil hm).elim,
      ?_, fun _ => Nat.zero_le _, fun h => by cases h⟩
    simp [start, load, enqueued]
  · refine ⟨[], [], [], rfl, Image.nil, fun _ _ => rfl, rfl, fun _ => ⟨rfl, hplace⟩, ?_, rfl⟩
    intro b hout
    cases hout

end

end Shclog.DualBuffer
