import Shclog.DualBuffer.Delivery

/-! # The program with a ring

What holds with a device holds with a ring: the program calls for a request only when it has the
result of the one before, so that every step of its ring is a step of a device. -/

namespace Shclog.DualBuffer

open Lib EventedIo

variable {c : Config}

/-- The program with another ring. -/
abbrev State.withRing {R S : Type} (s : State c R) (r : S) : State c S where
  pc := s.pc
  lineCount := s.lineCount
  ioBytes := s.ioBytes
  inFlight := s.inFlight
  fileOffset := s.fileOffset
  activeBuffer := s.activeBuffer
  consumedLines := s.consumedLines
  overflow := s.overflow
  memory := s.memory
  ring := r
  written := s.written
  file := s.file
  queue := s.queue
  sent := s.sent
  finished := s.finished
  producersFinished := s.producersFinished

section

variable {R S : Type} {s s' : State c R} {e : Event c} {late missed : Bool}

/-- The consumer does not look into the ring. -/
theorem consumer_withRing (s : State c R) (r : S) : (s.withRing r).consumer late missed =
    (s.consumer late missed).map fun x => (x.1, x.2.withRing r) := by
  obtain ⟨pc, _, _, _, _, _, _, overflow, _, _, _, _, queue, _, _, _⟩ := s
  cases pc with
  | outer | got m | nothing | after | reap =>
      simp only [State.consumer, State.withRing]
      split_ifs <;> rfl
  | inner =>
      simp only [State.consumer, State.withRing]
      split_ifs
      · rfl
      · cases overflow <;> cases queue <;> cases missed <;> rfl
  | drain b =>
      cases b <;> simp only [State.consumer, State.withRing] <;> split_ifs <;> rfl
  | _ => rfl

theorem ring_of_consumer (h : s.consumer late missed = some (e, s')) : s'.ring = s.ring := by
  cases consumes_of_consumer h <;> rfl

theorem follow_withRing (x : Shown) (r : R) (r' : S) :
    (s.follow x r).withRing r' = (s.withRing r').follow x r' := by
  unfold State.follow
  dsimp only
  split
  · rfl
  · split <;> rfl

theorem ring_follow (x : Shown) (r : R) : (s.follow x r).ring = r := by
  unfold State.follow
  dsimp only
  split
  · rfl
  · split <;> rfl

end

section

variable {s s' : State c Serving} {d : Device} {tr : List (Event c)} {e : Event c}

/-- A request is published only with the place free. -/
theorem Inv.place_free {s : State c Device} (hi : Inv tr s) {r : Request}
    (h : s.ring.push = .before r) : s.ring.place = .free := by
  obtain ⟨hpc, -⟩ := hi.control.pushing_of_before h
  obtain ⟨settled, flying, filling, -, hsplit⟩ := hi.parts
  have hother := hi.control.pc
  rw [State.Controlled, hpc] at hother
  refine (hsplit.free ?_).2
  rw [State.mode, hpc, h]
  exact if_neg (ne_true_of_eq_false hother.2.2)

/-- A step of the ring is a step of the device that it is. -/
theorem Inv.matched (hi : Inv tr (s.withRing d)) (hd : s.ring.Is d) {x : Shown} {r : Serving}
    (h : Serves s.ring x r) : ∃ d', d.Step x d' ∧ r.Is d' := by
  apply hd.matched h
  intro hpub
  obtain ⟨req, hreq⟩ := Option.ne_none_iff_exists'.mp hpub
  exact hi.place_free (hd.push.symm.trans (step_published h.step hreq))

/-- **The program with a ring does what it does with a device.** -/
theorem Inv.simulates (hi : Inv tr (s.withRing d)) (hd : s.ring.Is d) (h : Step ring s e s') :
    ∃ d', s'.ring.Is d' ∧ Step device (s.withRing d) e (s'.withRing d') := by
  cases h with
  | enqueue hlen hsent => exact ⟨d, hd, .enqueue hlen hsent⟩
  | finish hsent hfinished => exact ⟨d, hd, .finish hsent hfinished⟩
  | consumer late missed h =>
      refine ⟨d, ring_of_consumer h ▸ hd, .consumer late missed ?_⟩
      rw [consumer_withRing, h]
      rfl
  | call h hr =>
      obtain ⟨d', hstep, hd'⟩ := hi.matched hd hr
      exact ⟨d', hd', .call (s := s.withRing d) h hstep⟩
  | ring hr hpush hpop hres =>
      obtain ⟨d', hstep, hd'⟩ := hi.matched hd hr
      refine ⟨d', (ring_follow ..).symm ▸ hd', ?_⟩
      rw [follow_withRing]
      exact .ring (s := s.withRing d) hstep hpush hpop hres
  | write hx hmore =>
      exact ⟨d, hd, .write (M := device) (s := s.withRing d) (hd.working hx) hmore⟩

/-- With the `CHECK`s passing, what holds with a device holds after every run. -/
theorem run_inv {q : EventedIo} (hsq : q.SqSetUp) (hcq : q.CqSetUp) {memory : Nat → U8}
    (h : Run (Step ring) (start c (rest q) memory) tr s) (hpasses : ∀ e ∈ tr, e.passes = true) :
    ∃ d, s.ring.Is d ∧ Inv tr (s.withRing d) := by
  induction h with
  | nil => exact ⟨_, is_rest hsq hcq, inv_start _ rfl rfl rfl memory⟩
  | snoc hrun hs ih =>
      rw [List.forall_mem_append, List.forall_mem_singleton] at hpasses
      obtain ⟨d, hd, hi⟩ := ih hpasses.1
      obtain ⟨d', hd', hstep⟩ := hi.simulates hd hs
      exact ⟨d', hd', hi.step hstep hpasses.2⟩

/-! ## What is known of the file -/

/-- How many bytes behind `file_offset` the kernel has not been seen to have written. -/
def State.pending {R : Type} (s : State c R) : Nat :=
  if s.inFlight (!s.activeBuffer) then s.ioBytes (!s.activeBuffer) else 0

/-- Up to what is pending, the file is what was copied. -/
theorem Inv.behind {s : State c Device} (hi : Inv tr s) {i : Nat}
    (h : i < s.fileOffset - s.pending) : s.file i = (text tr)[i]? := by
  obtain ⟨settled, flying, filling, hl, hsplit⟩ := hi.parts
  have hpending : s.fileOffset - s.pending ≤ settled.length := by
    have hoffset : s.fileOffset = _ := hsplit.offset
    cases hmode : s.mode with
    | published =>
        rw [hmode] at hoffset
        exact Nat.le_trans (Nat.sub_le ..) (Nat.le_of_eq hoffset)
    | _ =>
        rw [hmode] at hoffset hsplit
        have hoffset : s.fileOffset = settled.length + flying.length := hoffset
        unfold State.pending
        split
        · next hother =>
            have hlen : s.ioBytes (!s.activeBuffer) = flying.length :=
              (hsplit.carries _ (if_pos hother)).len
            omega
        · next hother =>
            have hnone : flying = [] := (hsplit.free (if_neg hother)).1
            rw [hnone, List.length_nil] at hoffset
            omega
  have hfile := hsplit.file.eq (Nat.lt_of_lt_of_le h hpending)
  rw [Nat.zero_add] at hfile
  rw [hl, List.append_assoc, List.getElem?_append_left (by omega)]
  exact hfile

/-- **At the end, the file is what was copied**, and nothing else. -/
theorem Inv.at_done {s : State c Device} (hi : Inv tr s) (hpc : s.pc = .done) :
    s.file = (fun i => (text tr)[i]?) ∧ s.fileOffset = (text tr).length := by
  obtain ⟨settled, flying, filling, hl, hsplit⟩ := hi.parts
  have hnone := hi.control.pc
  rw [State.Controlled, hpc] at hnone
  rw [State.mode, hpc] at hsplit
  have hout : Mode.resting.out s.storage = none :=
    if_neg (ne_true_of_eq_false (hnone.2.2 (!s.activeBuffer)))
  obtain rfl : flying = [] := (hsplit.free hout).1
  obtain rfl : filling = [] := hsplit.active
  rw [List.append_nil, List.append_nil] at hl
  rw [hl]
  refine ⟨?_, hsplit.offset⟩
  funext i
  by_cases h : i < settled.length
  · have hfile := hsplit.file.eq h
    rwa [Nat.zero_add] at hfile
  · rw [List.getElem?_eq_none (Nat.le_of_not_lt h)]
    exact hsplit.above i (Nat.le_of_not_lt h)

/-- What the kernel writes from stays as it is. -/
theorem Inv.apart (hi : Inv tr (s.withRing d)) (hd : s.ring.Is d) (h : Step ring s e s')
    {x : Sqe × Nat} (hx : x ∈ s.ring.running) {i : Nat} (hlt : i < x.1.len.toNat) :
    s'.memory (x.1.addr.toNat + i) = s.memory (x.1.addr.toNat + i) := by
  cases h with
  | consumer late missed h =>
      cases consumes_of_consumer h with
      | copies hpc hroom =>
          obtain ⟨settled, flying, filling, hl, hsplit⟩ := hi.parts
          rw [State.mode, show (s.withRing d).pc = _ from hpc] at hsplit
          obtain ⟨b, hb, hcarry, haddr, hlen, -⟩ :=
            hsplit.working (hd.working hx) hi.control.room (hi.accounts.settled hl)
          obtain ⟨-, rfl⟩ := Mode.eq_of_out Mode.noConfusion hb
          have hbytes : s.ioBytes (!s.activeBuffer) = flying.length := hcarry.len
          have : s.ioBytes (!s.activeBuffer) < _ := hi.control.room _
          rw [haddr]
          exact Option.some_inj.mp (store_other s.activeBuffer hroom (by omega))
      | _ => rfl
  | ring hr hpush hpop hres =>
      unfold State.follow
      dsimp only
      split
      · rfl
      · split <;> rfl
  | _ => rfl

end

/-- What is known of the program after the run `tr` to `s`. -/
structure Written (tr : List (Event c)) (s : State c Serving) : Prop where
  /-- the lines are copied in the order of the queue, and each is copied once or is still to come; -/
  order : copied tr ++ s.waiting = enqueued tr
  /-- the buffer that is being filled is not the kernel's, `CHECK(!in_flight[active_buffer])`, -/
  active : s.inFlight s.activeBuffer = false
  /-- and whatever is done next, the kernel writes from memory that does not change; -/
  apart : ∀ e s', Step ring s e s' → ∀ x ∈ s.ring.running, ∀ i < x.1.len.toNat,
    s'.memory (x.1.addr.toNat + i) = s.memory (x.1.addr.toNat + i)
  /-- what is behind `file_offset`, but for the last request, is in the file; -/
  behind : ∀ i < s.fileOffset - s.pending, s.file i = (text tr)[i]?
  /-- and at the end the file is the lines that were copied, byte for byte, which are all that there
  were unless the loop was left for want of one. -/
  done : s.pc = .done → s.file = (fun i => (text tr)[i]?) ∧ s.fileOffset = (text tr).length ∧
    (.gaveUp ∈ tr ∨ copied tr = enqueued tr)

/-- **The lines get to the file in the order of the queue**, whatever the order of the steps of the
producers, the consumer, the ring and the kernel, as long as every `CHECK` passes. -/
theorem writes_in_order {q : EventedIo} (hsq : q.SqSetUp) (hcq : q.CqSetUp) {memory : Nat → U8}
    {tr : List (Event c)} {s : State c Serving}
    (h : Run (Step ring) (start c (rest q) memory) tr s) (hpasses : ∀ e ∈ tr, e.passes = true) :
    Written tr s := by
  obtain ⟨d, hd, hi⟩ := run_inv hsq hcq h hpasses
  refine ⟨hi.accounts.order, hi.control.active, ?_, fun i => hi.behind, ?_⟩
  · intro e s' hs x hx i hlt
    exact hi.apart hd hs hx hlt
  · intro hpc
    obtain ⟨hfile, hoffset⟩ := hi.at_done hpc
    have hover : (s.withRing d).pc.ended = true := by
      rw [show (s.withRing d).pc = _ from hpc]
      rfl
    exact ⟨hfile, hoffset, (hi.accounts.ended hover).imp_right hi.accounts.all⟩

/-- One producer and two lines, each of which fills a buffer. -/
def twoLines : Config where
  producers := 1
  linesPerProducer := 2
  maxIoBytes := 3
  maxLineLen := 2
  buffers := 64
  fits := by decide
  small := by decide
  inMemory := by decide
  inFile := by decide

def producer : Fin twoLines.producers := ⟨0, by decide⟩

/-- The second line is copied while the first one is written. -/
def schedule : List (Turn twoLines) :=
  [[.enqueue producer [65, 10], .enqueue producer [66, 10], .finish producer],
    List.replicate 7 (.consumer false false), [.call], List.replicate 14 (.ring (.push true, 0)),
    List.replicate 2 (.consumer false false),
    [.ring (.consume, 0), .write 0, .consumer false false, .write 0, .ring (.post 2, 0),
      .ring (.commit 1, 0), .ring (.release 1, 0)],
    List.replicate 2 (.consumer false false), [.call], List.replicate 5 (.ring (.pop true, 0)),
    [.call], List.replicate 14 (.ring (.push true, 0)),
    List.replicate 2 (.consumer false false),
    [.ring (.consume, 0), .write 0, .write 0, .ring (.post 2, 0), .ring (.commit 1, 0)],
    [.call], List.replicate 5 (.ring (.pop true, 0))].flatten

def bothWritten : Option (List (Event twoLines) × State twoLines Serving) :=
  exec next (start twoLines (rest (fresh 0 0xFFFFFFFF false)) fun _ => 0) schedule

theorem bothWritten_isSome : bothWritten.isSome = true := by decide +kernel

theorem writes_in_order_two : ∃ tr s,
    Run (Step ring) (start twoLines (rest (fresh 0 0xFFFFFFFF false)) fun _ => 0) tr s ∧
    s.pc = .done ∧ (List.range 5).map s.file = [some 65, some 10, some 66, some 10, none] ∧
    Written tr s := by
  have h := Run.of_exec_isSome step_of_next bothWritten_isSome
  exact ⟨_, _, h, by decide +kernel, by decide +kernel, writes_in_order ⟨⟨0, by decide, rfl⟩, rfl⟩
    ⟨⟨0, by decide, rfl⟩, rfl⟩ h (by decide +kernel)⟩

end Shclog.DualBuffer
