import Shclog.EventedIo.Submission

/-! # A push that fails

A push can report failure at two places: before it has written anything, when no slot is free, and
after it has published its entry, when `io_uring_enter` fails. The first leaves no trace. The second
leaves the entry in the ring, where the kernel finds it as soon as it looks. -/

namespace Shclog

open Lib

namespace EventedIo

variable {q : EventedIo} {s s' m m' : State} {e : Event} {tr seg mid : List Event} {k : Nat}
  {r : Request} {res : PushResult}

/-! ## A call -/

/-- How far a push for `r` has got that found `sq_tail` at `tail` and `sq_mask` to be `mask`: which
values of `sq_head` it has read, what it has published, and where `sq_tail` is now. -/
def Pushing.Stage (r : Request) (tail mask : U32) (heads : List U32) (pubs : List Request)
    (now : U32) : Pushing → Prop
  | .tail r' => r' = r ∧ heads = [] ∧ pubs = [] ∧ now = tail
  | .head r' t => r' = r ∧ t = tail ∧ heads = [] ∧ pubs = [] ∧ now = tail
  | .fill r' slot _ => r' = r ∧ slot = tail ∧ pubs = [] ∧ now = tail ∧ Granted
  | .publish r' slot => r' = r ∧ slot = tail ∧ pubs = [] ∧ now = tail ∧ Granted
  | .flags => pubs = [r] ∧ now = tail + 1 ∧ Granted
  | .enter _ => pubs = [r] ∧ now = tail + 1 ∧ Granted
where
  /-- It has read the head once, and found a free slot. -/
  Granted : Prop := ∃ head, heads = [head] ∧ noSqSlot tail head mask = false

/-- A push for `r` that has begun in `s` and, showing `tr`, has not yet returned. -/
def Submitting (r : Request) (s : State) (tr : List Event) (m : State) : Prop :=
  m.io.sqMask = s.io.sqMask ∧ ∃ pc, m.push = some pc ∧
    pc.Stage r s.io.sqTail s.io.sqMask (headsRead tr) (published tr) m.io.sqTail

/-- What a push for `r` that has returned `res` has done, showing `tr`: either it read a `sq_head`
that leaves no free slot, and nothing else happened; or it read one that does, and published. -/
def Submitted (r : Request) (s : State) (res : PushResult) (tr : List Event) (m : State) : Prop :=
  ∃ head, headsRead tr = [head] ∧
    ((noSqSlot s.io.sqTail head s.io.sqMask = true ∧ res = .queueIsFull ∧ published tr = [] ∧
        m.io.sqTail = s.io.sqTail) ∨
      (noSqSlot s.io.sqTail head s.io.sqMask = false ∧ res ≠ .queueIsFull ∧ published tr = [r] ∧
        m.io.sqTail = s.io.sqTail + 1))

/-- An operation of the push takes it on, or it is the last one. -/
theorem Submitting.own {pc : Pushing} (ok : Bool) (hmask : m.io.sqMask = s.io.sqMask)
    (hstage : pc.Stage r s.io.sqTail s.io.sqMask (headsRead tr) (published tr) m.io.sqTail) :
    let e := (pushStep m ok pc).1
    let m' := (pushStep m ok pc).2
    (e.pushResult? = none ∧ Submitting r s (tr ++ [e]) m') ∨
      ∃ res, e.pushResult? = some res ∧ Submitted r s res (tr ++ [e]) m' := by
  intro e m'
  unfold Submitting Submitted
  rw [headsRead_snoc, published_snoc]
  cases pc with
  | tail r' =>
      obtain ⟨rfl, hheads, hpubs, hnow⟩ := hstage
      rw [hheads, hpubs]
      exact .inl ⟨rfl, hmask, _, rfl, rfl, hnow, rfl, rfl, hnow⟩
  | head r' t =>
      obtain ⟨rfl, rfl, hheads, hpubs, hnow⟩ := hstage
      simp only [e, m', pushStep, hheads, hpubs]
      cases hfull : noSqSlot s.io.sqTail m.io.sqHead m.io.sqMask with
      | true => exact .inr ⟨_, rfl, m.io.sqHead, rfl, .inl ⟨hmask ▸ hfull, rfl, rfl, hnow⟩⟩
      | false => exact .inl ⟨rfl, hmask, _, rfl, rfl, rfl, rfl, hnow, m.io.sqHead, rfl, hmask ▸ hfull⟩
  | fill r' slot todo =>
      obtain ⟨rfl, rfl, hpubs, hnow, head, hheads, hroom⟩ := hstage
      rw [hheads, hpubs]
      cases todo with
      | nil => exact .inl ⟨rfl, hmask, _, rfl, rfl, rfl, rfl, hnow, head, rfl, hroom⟩
      | cons st todo => exact .inl ⟨rfl, hmask, _, rfl, rfl, rfl, rfl, hnow, head, rfl, hroom⟩
  | publish r' slot =>
      obtain ⟨rfl, rfl, hpubs, hnow, head, hheads, hroom⟩ := hstage
      rw [hheads, hpubs]
      refine .inl ⟨rfl, hmask, _, rfl, ?_⟩
      cases m.io.isSqPoll <;> exact ⟨rfl, rfl, head, rfl, hroom⟩
  | flags =>
      obtain ⟨hpubs, hnow, head, hheads, hroom⟩ := hstage
      rw [hheads, hpubs]
      exact .inl ⟨rfl, hmask, _, rfl, rfl, hnow, head, rfl, hroom⟩
  | enter args =>
      obtain ⟨hpubs, hnow, head, hheads, hroom⟩ := hstage
      rw [hheads, hpubs]
      refine .inr ⟨_, rfl, head, rfl, .inr ⟨hroom, ?_, rfl, hnow⟩⟩
      cases ok <;> exact PushResult.noConfusion

theorem Submitting.step (hu : Submitting r s tr m) (h : Step m e m') :
    (e.pushResult? = none ∧ Submitting r s (tr ++ [e]) m') ∨
      ∃ res, e.pushResult? = some res ∧ Submitted r s res (tr ++ [e]) m' := by
  obtain ⟨hmask, pc, hpc, hstage⟩ := hu
  rcases step_inside hpc h with ⟨ok, rfl, rfl⟩ | haside
  · exact Submitting.own ok hmask hstage
  · refine .inl ⟨haside.result, haside.mask.trans hmask, pc, haside.push.trans hpc, ?_⟩
    rw [headsRead_snoc, published_snoc, haside.head, haside.published, haside.tail]
    simpa using hstage

theorem step_pushCalled (h : Step s (.pushCalled r) s') :
    s' = { s with push := some (.tail r) } := by
  rcases step_push h with ⟨r', -, he, rfl⟩ | ⟨pc, ok, -, he, -⟩ | haside
  · cases he
    rfl
  · cases pc with
    | head r tail =>
        simp only [pushStep] at he
        split at he <;> cases he
    | fill r slot todo => cases todo <;> cases he
    | _ => cases he
  · cases haside.called

/-- **A call of a push, from its first step to its last**, with anything in between. -/
theorem submitted_of_call (h : Run Step s (.pushCalled r :: mid ++ [e]) s')
    (hmid : ∀ x ∈ mid, x.pushResult? = none) (he : e.pushResult? = some res) :
    Submitted r s res (.pushCalled r :: mid ++ [e]) s' := by
  obtain ⟨m, hcall, hrun⟩ := h.uncons
  obtain rfl := step_pushCalled hcall
  have hbegun : Submitting r s [.pushCalled r] { s with push := some (.tail r) } :=
    ⟨rfl, _, rfl, rfl, rfl, rfl, rfl⟩
  refine Run.until_result (D := fun tr m => Submitting r s (.pushCalled r :: tr) m)
    (R := fun res tr m => Submitted r s res (.pushCalled r :: tr) m) hbegun ?_ hrun hmid he
  intro tr m e m' _ hu hs
  exact hu.step hs

/-! ## What the kernel makes of it -/

/-- The kernel may read everything that is published before anything else happens. -/
theorem exists_drain (s : State) (hle : s.taken ≤ s.io.sq.count) :
    ∃ tr s', Run Step s tr s' ∧ published tr = [] ∧ s'.unread = [] := by
  obtain ⟨n, hn⟩ := Nat.exists_eq_add_of_le hle
  induction n generalizing s with
  | zero =>
      refine ⟨[], s, .nil, rfl, ?_⟩
      rw [State.unread, List.drop_eq_nil_iff, Sq.length_pending]
      exact Nat.le_of_eq hn
  | succ n ih =>
      have hlt : s.taken < s.io.sq.count := by omega
      have hnext : s.io.sq.count = s.taken + 1 + n := by omega
      obtain ⟨tr, s', hrun, hpub, hunread⟩ := ih { s with taken := s.taken + 1 } hlt hnext
      exact ⟨_, s', .cons (.consume hlt) hrun, hpub, hunread⟩

/-- Whatever has been published, the kernel can go on to read it all, in order. -/
theorem exists_read_all (hq : q.SqSetUp) (h : Run Step (idle q) tr s) :
    ∃ tr' s', Run Step s tr' s' ∧ published tr' = [] ∧
      consumed (tr ++ tr') = (published tr).map Request.sqe := by
  obtain ⟨k, h₀⟩ := hq.inv
  obtain ⟨tr', s', hrun, hpub, hunread⟩ := exists_drain s (run_sqInv h₀ h).taken_le
  refine ⟨tr', s', hrun, hpub, ?_⟩
  have horder := (never_overwrites hq (h.append hrun)).order
  have hsame : published (tr ++ tr') = published tr := by
    unfold published at hpub ⊢
    rw [List.filterMap_append, hpub, List.append_nil]
  rwa [hunread, List.append_nil, hsame] at horder

/-- The push that showed `seg` between `s` and `s'`, after the run `tr`, has had no effect: it left
`sq_tail` as it was, and whatever happens later, the kernel only ever reads what was published
before the call or is published after it. -/
structure NoEffect (tr : List Event) (s : State) (seg : List Event) (s' : State) : Prop where
  tail : s'.io.sqTail = s.io.sqTail
  later : ∀ tr' s'', Run Step s' tr' s'' →
    consumed (tr ++ seg ++ tr') <+: (published tr ++ published tr').map Request.sqe

/-- A push has had no effect exactly if it found no free slot when it read `sq_head`, and so was
refused before it had published anything. -/
theorem noEffect_iff (hq : q.SqSetUp) (h₀ : Run Step (idle q) tr s)
    (h : Run Step s (.pushCalled r :: mid ++ [e]) s') (hmid : ∀ x ∈ mid, x.pushResult? = none)
    (he : e.pushResult? = some res) :
    NoEffect tr s (.pushCalled r :: mid ++ [e]) s' ↔
      ∃ head ∈ headsRead (.pushCalled r :: mid ++ [e]),
        noSqSlot s.io.sqTail head s.io.sqMask = true := by
  generalize hseg : Event.pushCalled r :: mid ++ [e] = seg at h ⊢
  have hdone : Submitted r s res seg s' := hseg ▸ submitted_of_call (hseg ▸ h) hmid he
  obtain ⟨head, hheads, hcases⟩ := hdone
  rw [hheads]
  simp only [List.mem_singleton, exists_eq_left]
  have hall := h₀.append h
  rcases hcases with ⟨hfull, -, hpub, htail⟩ | ⟨hroom, -, hpub, htail⟩
  · refine iff_of_true ⟨htail, ?_⟩ hfull
    intro tr' s'' h'
    have hkept := (never_overwrites hq (hall.append h')).order
    have hsame : published (tr ++ seg ++ tr') = published tr ++ published tr' := by
      unfold published at hpub ⊢
      rw [List.filterMap_append, List.filterMap_append, hpub, List.append_nil]
    exact ⟨_, hsame ▸ hkept⟩
  · refine iff_of_false ?_ (by simp [hroom])
    rintro ⟨-, hlater⟩
    -- the kernel need only look: the entry of the failed push is among those it reads
    obtain ⟨tr', s'', h', hnone, hread⟩ := exists_read_all hq hall
    have hpre := (hlater tr' s'' h').length_le
    rw [hread, hnone, published, List.filterMap_append, ← published, ← published, hpub] at hpre
    simp at hpre

/-- A push reports success at an `io_uring_enter` that succeeds, and nowhere else. -/
theorem pushResult_success_iff (he : e.pushResult? = some res) :
    res = .success ↔ ∃ args, e = .pushEntered args true := by
  cases e with
  | pushEntered args ok =>
      cases he
      cases ok <;> simp
  | refused head =>
      cases he
      simp
  | _ => cases he

/-- **When a push that reports failure has had no effect**: if it found no free slot, and so reports
`QueueIsFull`. If it found one, it has published its entry by the time it enters the kernel, and the
promise is kept only by an `io_uring_enter` that succeeds: `WakeFailed` always breaks it. -/
theorem push_no_effect_iff (hq : q.SqSetUp) (h₀ : Run Step (idle q) tr s)
    (h : Run Step s (.pushCalled r :: mid ++ [e]) s') (hmid : ∀ x ∈ mid, x.pushResult? = none)
    (he : e.pushResult? = some res) :
    (res = .queueIsFull ∨ res = .wakeFailed → NoEffect tr s (.pushCalled r :: mid ++ [e]) s') ↔
      (∃ head ∈ headsRead (.pushCalled r :: mid ++ [e]),
        noSqSlot s.io.sqTail head s.io.sqMask = true) ∨
      ∃ args, e = .pushEntered args true := by
  rw [noEffect_iff hq h₀ h hmid he, ← pushResult_success_iff he]
  cases res with
  | success => simp
  | wakeFailed => simp
  | queueIsFull => simp

/-- What a `push_write` shows that finds a ring empty and at 0, up to the publication. -/
def firstWrite : List Event :=
  .tailLoaded :: .granted 0 :: List.replicate 8 (.sqeStored 0) ++
    [.arrayStored 0, .published (writeFrom 0)]

set_option maxRecDepth 1000 in
/-- With a kernel thread that cannot be woken, the request is in the ring all the same. -/
theorem push_no_effect_iff_asleep :
    ∃ s', Run Step (idle (fresh 1 0 true)) (.pushCalled (writeFrom 0) ::
        (firstWrite ++ [.flagsLoaded]) ++ [.pushEntered (fresh 1 0 true).wakeEnter false]) s' ∧
      ¬ NoEffect [] (idle (fresh 1 0 true)) (.pushCalled (writeFrom 0) ::
        (firstWrite ++ [.flagsLoaded]) ++ [.pushEntered (fresh 1 0 true).wakeEnter false]) s' := by
  have h := Run.of_exec step_of_move
    (show exec move (idle (fresh 1 0 true))
      (.pushCall (writeFrom 0) :: List.replicate 13 (.push true) ++ [.push false]) =
        some (.pushCalled (writeFrom 0) :: (firstWrite ++ [.flagsLoaded]) ++
          [.pushEntered (fresh 1 0 true).wakeEnter false], _) from rfl)
  refine ⟨_, h, fun hno => ?_⟩
  rcases (push_no_effect_iff ⟨⟨1, by decide, rfl⟩, rfl⟩ .nil h (by decide) rfl).mp fun _ => hno with
    ⟨head, hmem, hfull⟩ | ⟨args, hok⟩
  · obtain rfl : head = 0 := List.mem_singleton.mp hmem
    exact absurd hfull (by decide)
  · cases hok

set_option maxRecDepth 1000 in
/-- It is not so that a push that reports failure has had no effect: in a ring of two entries, a
`push_write` whose `io_uring_enter` fails has moved `sq_tail`. -/
theorem failed_push_takes_effect :
    ¬ ∀ (q : EventedIo) (tr : List Event) (s : State) (r : Request) (mid : List Event) (e : Event)
      (res : PushResult) (s' : State), q.SqSetUp → Run Step (idle q) tr s →
      Run Step s (.pushCalled r :: mid ++ [e]) s' → (∀ x ∈ mid, x.pushResult? = none) →
      e.pushResult? = some res → res = .queueIsFull ∨ res = .wakeFailed →
      NoEffect tr s (.pushCalled r :: mid ++ [e]) s' := by
  intro hall
  have h := Run.of_exec step_of_move
    (show exec move (idle (fresh 1 0 false))
      (.pushCall (writeFrom 0) :: List.replicate 12 (.push true) ++ [.push false]) =
        some (.pushCalled (writeFrom 0) :: firstWrite ++
          [.pushEntered (fresh 1 0 false).submitEnter false], _) from rfl)
  have hno := hall (fresh 1 0 false) [] _ _ _ _ .wakeFailed _ ⟨⟨1, by decide, rfl⟩, rfl⟩ .nil h
    (by decide) rfl (.inr rfl)
  exact absurd hno.tail (by decide)

end EventedIo

end Shclog
