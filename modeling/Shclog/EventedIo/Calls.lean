import Shclog.EventedIo.Submission

/-! # Whole calls, and a ring that `io_uring_enter` feeds

Without SQPOLL nobody but `io_uring_enter` moves `sq_head`: the functions of the class are then
functions of the state they find and of whether their system call succeeds. They are written out
here as such, a system of whole calls is made of them, and each of its steps is a run of the machine
of single operations. -/

namespace Shclog

open Lib

namespace EventedIo

/-! ## The functions of the class -/

/-- What the kernel does in an `io_uring_enter` of a ring without SQPOLL: it consumes the `to_submit`
oldest entries, or all if there are fewer; and none if the call fails. -/
def serve (q : EventedIo) (args : Enter) (ok : Bool) : EventedIo :=
  if ok then q.releaseSq (min args.toSubmit.toNat q.sq.count) else q

/-- `next_sq_slot`. -/
def nextSqSlot (q : EventedIo) : Option U32 :=
  if noSqSlot q.sqTail q.sqHead q.sqMask then none else some q.sqTail

/-- The assignments to the entry at `index`, in order. -/
def fillSlot (q : EventedIo) (index : U32) (stores : List Store) : EventedIo :=
  stores.foldl (fun q st => q.storeSqe index st) q

/-- `submit`. -/
def submit (q : EventedIo) (slot index : U32) (ok : Bool) : PushResult × EventedIo :=
  let q := (q.storeArray index).storeSqTail (slot + 1)
  let args := if q.isSqPoll && q.needWakeup then q.wakeEnter else q.submitEnter
  (if ok then .success else .wakeFailed, q.serve args ok)

/-- `push_write`, `push_writev` and `push_read`; `ok` is whether `io_uring_enter` would succeed. -/
def push (q : EventedIo) (r : Request) (ok : Bool) : PushResult × EventedIo :=
  match q.nextSqSlot with
  | none => (.queueIsFull, q)
  | some slot =>
    let index := slot &&& q.sqMask
    (q.fillSlot index r.stores).submit slot index ok

/-- `pop_one`. -/
def popOne (q : EventedIo) (ok : Bool) : Except PopError I32 × EventedIo :=
  let q := q.serve q.waitEnter ok
  if !ok then (.error .completionCheckError, q)
  else if q.cqHead = q.cqTail then (.error .ringEmpty, q)
  else (.ok (q.cqes (q.cqHead &&& q.cqMask)), q.storeCqHead (q.cqHead + 1))

/-- `pop_write`, `pop_writev` and `pop_read`. -/
def pop (q : EventedIo) (k : Pop) (ok : Bool) : PopResult × EventedIo :=
  match q.popOne ok with
  | (.error e, q) => (.error (.inl e), q)
  | (.ok rc, q) => (k.resultOf rc, q)

/-! ## The system -/

/-- A call with its result, or a completion that the kernel posts in between. -/
inductive Call where
  | push (r : Request) (ok : Bool) (res : PushResult)
  | pop (k : Pop) (ok : Bool) (res : PopResult)
  | complete (res : I32)

inductive CallStep : EventedIo → Call → EventedIo → Prop
  | push (q : EventedIo) (r : Request) (ok : Bool) :
      CallStep q (.push r ok (q.push r ok).1) (q.push r ok).2
  | pop (q : EventedIo) (k : Pop) (ok : Bool) :
      CallStep q (.pop k ok (q.pop k ok).1) (q.pop k ok).2
  | complete {q : EventedIo} (res : I32) (h : q.cq.count < q.cq.entries) :
      CallStep q (.complete res) ((q.storeCqe (q.cq.cell q.cq.count) res).commitCq 1)

variable {q q' : EventedIo} {s : State} {index slot : U32} {stores : List Store} {r : Request}
  {ok : Bool} {k n : Nat} {c : Call}

theorem fillSlot_eq (q : EventedIo) (index : U32) (stores : List Store) :
    q.fillSlot index stores =
      { q with sqes := Function.update q.sqes index ((q.sqes index).fill stores) } := by
  induction stores generalizing q with
  | nil =>
      show q = { q with sqes := Function.update q.sqes index (q.sqes index) }
      rw [Function.update_eq_self]
  | cons st stores ih =>
      show (q.storeSqe index st).fillSlot index stores = _
      rw [ih]
      simp only [storeSqe, Function.update_self, Function.update_idem]
      rfl

theorem releaseSq_zero (q : EventedIo) : q.releaseSq 0 = q := by
  show { q with sqHead := q.sqHead + 0#32 } = q
  rw [BitVec.add_zero]

theorem serve_waitEnter (q : EventedIo) (ok : Bool) : q.serve q.waitEnter ok = q := by
  unfold serve
  split
  · show q.releaseSq (min 0 _) = q
    rw [Nat.zero_min, releaseSq_zero]
  · rfl

/-- The ring once the entry behind the tail holds a request and is published. -/
def publish (q : EventedIo) (r : Request) : EventedIo :=
  let index := q.sqTail &&& q.sqMask
  ((q.fillSlot index r.stores).storeArray index).storeSqTail (q.sqTail + 1)

@[simp] theorem publish_sqHead (q : EventedIo) (r : Request) : (q.publish r).sqHead = q.sqHead := by
  rw [publish, fillSlot_eq]
  rfl

@[simp] theorem publish_isSqPoll (q : EventedIo) (r : Request) :
    (q.publish r).isSqPoll = q.isSqPoll := by
  rw [publish, fillSlot_eq]
  rfl

theorem push_refused (hfull : noSqSlot q.sqTail q.sqHead q.sqMask = true) :
    q.push r ok = (.queueIsFull, q) := by
  unfold push nextSqSlot
  rw [if_pos hfull]

theorem push_granted (hpoll : q.isSqPoll = false)
    (hroom : noSqSlot q.sqTail q.sqHead q.sqMask = false) :
    q.push r ok = (if ok then .success else .wakeFailed,
      (q.publish r).serve (q.publish r).submitEnter ok) := by
  have hpoll' : (q.publish r).isSqPoll = false := (q.publish_isSqPoll r).trans hpoll
  unfold push nextSqSlot
  rw [hroom]
  show ((if ok then _ else _ : PushResult), (q.publish r).serve
    (if (q.publish r).isSqPoll && _ then _ else (q.publish r).submitEnter) ok) = _
  rw [hpoll']
  rfl

theorem pop_failed (q : EventedIo) (k : Pop) :
    q.pop k false = (.error (.inl .completionCheckError), q) := by
  unfold pop popOne
  rw [serve_waitEnter]
  rfl

theorem pop_empty (k : Pop) (h : q.cqHead = q.cqTail) :
    q.pop k true = (.error (.inl .ringEmpty), q) := by
  unfold pop popOne
  rw [serve_waitEnter]
  simp [h]

theorem pop_taken (k : Pop) (h : q.cqHead ≠ q.cqTail) :
    q.pop k true = (k.resultOf (q.cqes (q.cqHead &&& q.cqMask)),
      q.storeCqHead (q.cqHead + 1)) := by
  unfold pop popOne
  rw [serve_waitEnter]
  simp [h]

/-! ## Each call is a run of the machine -/

/-- Nothing is in progress but a push. -/
def inPush (q : EventedIo) (pc : Pushing) : State := { idle q with push := some pc }

/-- Nothing is in progress but a pop. -/
def inPop (q : EventedIo) (pc : Popping) : State := { idle q with pop := some pc }

theorem reach_push (q : EventedIo) (ok : Bool) (pc : Pushing) :
    Reaches Step (inPush q pc) (pushStep (inPush q pc) ok pc).2 :=
  .single (.push ok rfl)

theorem reach_pop (q : EventedIo) (ok : Bool) (pc : Popping) :
    Reaches Step (inPop q pc) (popStep (inPop q pc) ok pc).2 :=
  .single (.pop ok rfl)

/-- The kernel may consume as many entries as there are. -/
theorem reach_release (hn : n ≤ s.io.sq.count) (htaken : s.taken = 0) :
    Reaches Step s { s with io := s.io.releaseSq n } := by
  have hread : ∀ m ≤ n, Reaches Step s { s with taken := m } := by
    intro m hm
    induction m with
    | zero =>
        rw [← htaken]
        exact .refl s
    | succ m ih =>
        apply (ih (Nat.le_of_succ_le hm)).trans
        exact .single (.consume (Nat.lt_of_lt_of_le hm hn))
  have hback : Reaches Step { s with taken := n } { s with io := s.io.releaseSq n, taken := n - n } :=
    .single (.release (Nat.le_refl n))
  rw [Nat.sub_self, ← htaken] at hback
  exact (hread n (Nat.le_refl n)).trans hback

theorem reach_fill (q : EventedIo) (todo : List Store) :
    Reaches Step (inPush q (.fill r slot todo))
      (inPush (q.fillSlot (slot &&& q.sqMask) todo) (.fill r slot [])) := by
  induction todo generalizing q with
  | nil => exact .refl _
  | cons st todo ih => exact (reach_push q true _).trans (ih (q.storeSqe (slot &&& q.sqMask) st))

/-- The entry is written and published. -/
theorem reach_publish (r : Request) (hpoll : q.isSqPoll = false) :
    Reaches Step (inPush q (.fill r q.sqTail r.stores))
      (inPush (q.publish r) (.enter (q.publish r).submitEnter)) := by
  let index := q.sqTail &&& q.sqMask
  let q₁ := q.fillSlot index r.stores
  have hq₁ : q₁ = { q with sqes := _ } := fillSlot_eq q index r.stores
  have hmask : q₁.sqMask = q.sqMask := by rw [hq₁]
  have hpoll₁ : (q₁.storeArray index).isSqPoll = false := by rw [hq₁]; exact hpoll
  have harray := reach_push q₁ true (.fill r q.sqTail [])
  have htail := reach_push (q₁.storeArray index) true (.publish r q.sqTail)
  simp only [pushStep, inPush, idle, hmask] at harray
  simp only [pushStep, inPush, idle, hpoll₁, Bool.false_eq_true, if_false] at htail
  calc Reaches Step (inPush q (.fill r q.sqTail r.stores)) (inPush q₁ (.fill r q.sqTail [])) :=
        reach_fill q r.stores
    Reaches Step _ (inPush (q₁.storeArray index) (.publish r q.sqTail)) := harray
    Reaches Step _ (inPush (q.publish r) (.enter (q.publish r).submitEnter)) := htail

/-- What the kernel does in an `io_uring_enter` it may do just before. -/
theorem reach_serve (q : EventedIo) (args args' : Enter) (ok : Bool) :
    Reaches Step (inPush q (.enter args')) (inPush (q.serve args ok) (.enter args')) := by
  unfold serve
  split
  · exact reach_release (Nat.min_le_right _ _) rfl
  · exact .refl _

theorem reach_pushCall (r : Request) (ok : Bool) (hpoll : q.isSqPoll = false) :
    Reaches Step (idle q) (idle (q.push r ok).2) := by
  have hhead : Reaches Step (idle q) (inPush q (.head r q.sqTail)) :=
    .trans (.single (.pushCall r rfl)) (reach_push q true (.tail r))
  have htest := reach_push q true (.head r q.sqTail)
  cases hfull : noSqSlot q.sqTail q.sqHead q.sqMask with
  | true =>
      rw [push_refused hfull]
      simp only [pushStep, inPush, idle, hfull, if_true] at htest
      exact hhead.trans htest
  | false =>
      rw [push_granted hpoll hfull]
      simp only [pushStep, inPush, idle, hfull, Bool.false_eq_true, if_false] at htest
      let args := (q.publish r).submitEnter
      calc Reaches Step (idle q) (inPush q (.head r q.sqTail)) := hhead
        Reaches Step _ (inPush q (.fill r q.sqTail r.stores)) := htest
        Reaches Step _ (inPush (q.publish r) (.enter args)) := reach_publish r hpoll
        Reaches Step _ (inPush ((q.publish r).serve args ok) (.enter args)) := reach_serve ..
        Reaches Step _ (idle ((q.publish r).serve args ok)) := reach_push _ ok (.enter args)

theorem reach_popCall (q : EventedIo) (k : Pop) (ok : Bool) :
    Reaches Step (idle q) (idle (q.pop k ok).2) := by
  have henter : Reaches Step (idle q) (inPop q (.enter k)) := .single (.popCall k rfl)
  cases ok with
  | false =>
      rw [pop_failed]
      exact henter.trans (reach_pop q false (.enter k))
  | true =>
      have htail : Reaches Step (idle q) (inPop q (.tail k q.cqHead)) :=
        henter.trans ((reach_pop q true (.enter k)).trans (reach_pop q true (.head k)))
      have htest := reach_pop q true (.tail k q.cqHead)
      by_cases hempty : q.cqHead = q.cqTail
      · have hback : (popStep (inPop q (.tail k q.cqHead)) true (.tail k q.cqHead)).2 = idle q := by
          show (if q.cqHead = q.cqTail then _ else _ : Event × State).2 = _
          rw [if_pos hempty]
          rfl
        rw [pop_empty k hempty]
        exact htail.trans (hback ▸ htest)
      · have hfound : (popStep (inPop q (.tail k q.cqHead)) true (.tail k q.cqHead)).2 =
            inPop q (.read k q.cqHead) := by
          show (if q.cqHead = q.cqTail then _ else _ : Event × State).2 = _
          rw [if_neg hempty]
          rfl
        rw [pop_taken k hempty]
        calc Reaches Step (idle q) (inPop q (.tail k q.cqHead)) := htail
          Reaches Step _ (inPop q (.read k q.cqHead)) := hfound ▸ htest
          Reaches Step _ (inPop q (.release k q.cqHead (q.cqes (q.cqHead &&& q.cqMask)))) :=
            reach_pop q true (.read k q.cqHead)
          Reaches Step _ (idle (q.storeCqHead (q.cqHead + 1))) := reach_pop q true _

/-- **A step of the system of whole calls is a run of the machine.** -/
theorem reach_call (hpoll : q.isSqPoll = false) (h : CallStep q c q') :
    Reaches Step (idle q) (idle q') := by
  cases h with
  | push r ok => exact reach_pushCall r ok hpoll
  | pop k ok => exact reach_popCall q k ok
  | complete res h =>
      have hpost := Step.post (s := idle q) res h
      exact .trans (.single hpost) (.single (.commit (Nat.le_refl 1)))

/-! ## What a call does to the submission ring -/

/-- A pop leaves it alone. -/
theorem pop_sq (q : EventedIo) (k : Pop) (ok : Bool) :
    (q.pop k ok).2.sq = q.sq ∧ (q.pop k ok).2.isSqPoll = q.isSqPoll := by
  cases ok with
  | false => rw [pop_failed]; exact ⟨rfl, rfl⟩
  | true =>
      by_cases hempty : q.cqHead = q.cqTail
      · rw [pop_empty k hempty]
        exact ⟨rfl, rfl⟩
      · rw [pop_taken k hempty]
        exact ⟨rfl, rfl⟩

theorem serve_isSqPoll (q : EventedIo) (args : Enter) (ok : Bool) :
    (q.serve args ok).isSqPoll = q.isSqPoll := by
  cases ok <;> rfl

theorem call_isSqPoll (hpoll : q.isSqPoll = false) (h : CallStep q c q') : q'.isSqPoll = false := by
  cases h with
  | push r ok =>
      cases hfull : noSqSlot q.sqTail q.sqHead q.sqMask with
      | true =>
          rw [push_refused hfull]
          exact hpoll
      | false =>
          rw [push_granted hpoll hfull, serve_isSqPoll, publish_isSqPoll]
          exact hpoll
  | pop k ok => exact (pop_sq q k ok).2.trans hpoll
  | complete res h => exact hpoll

/-- **Every run of whole calls is a run of the machine**, and ends where it does. -/
theorem reach_calls {tr : List Call} (hpoll : q.isSqPoll = false) (h : Run CallStep q tr q') :
    q'.isSqPoll = false ∧ Reaches Step (idle q) (idle q') :=
  Run.reaches (I := fun q => q.isSqPoll = false) hpoll (fun _ _ _ => call_isSqPoll)
    (fun _ _ _ => reach_call) h

section Counts

variable (hi : SqInv k q.sq none 0) (hpoll : q.isSqPoll = false)

include hi

theorem count_publish (r : Request) (hroom : noSqSlot q.sqTail q.sqHead q.sqMask = false) :
    (q.publish r).sq.count = q.sq.count + 1 := by
  have hne : q.sq.count ≠ q.sq.entries := by
    intro h
    have hfull : noSqSlot q.sqTail q.sqHead q.sqMask = true := hi.noSqSlot_iff.mpr h
    rw [hroom] at hfull
    cases hfull
  have hle : q.sq.count ≤ q.sq.entries := hi.count_le.trans_eq hi.mask.symm
  have hlt := hi.count_succ_lt (Nat.lt_of_le_of_ne hle hne)
  have hhead : (q.publish r).sq.count = ({ q.sq with tail := q.sqTail + 1 } : Sq).count := by
    show (_ - (q.publish r).sqHead).toNat = _
    rw [publish_sqHead]
    rfl
  exact hhead.trans (Sq.count_publish hlt)

include hpoll

/-- A push that is not refused publishes one entry, and its `io_uring_enter` takes one if it
succeeds: with entries left over from before, that is another one. -/
theorem count_push (r : Request) (ok : Bool)
    (hroom : noSqSlot q.sqTail q.sqHead q.sqMask = false) :
    (q.push r ok).2.sq.count = q.sq.count + if ok then 0 else 1 := by
  rw [push_granted hpoll hroom]
  have hcount := count_publish hi r hroom
  cases ok with
  | false => exact hcount
  | true =>
      have hone : min (q.publish r).submitEnter.toSubmit.toNat (q.publish r).sq.count = 1 := by
        show min 1 _ = 1
        omega
      show ((q.publish r).releaseSq (min _ _)).sq.count = q.sq.count
      rw [hone]
      show ({ (q.publish r).sq with head := (q.publish r).sq.head + BitVec.ofNat 32 1 } : Sq).count = _
      rw [Sq.count_release (by omega), hcount]
      omega

end Counts

/-! ## Recovery -/

/-- The next push succeeds if its `io_uring_enter` does, and one that succeeds leaves nothing
published that the kernel has not consumed. -/
structure Recovers (q : EventedIo) : Prop where
  next : ∀ r, (q.push r true).1 = .success
  all : ∀ r ok, (q.push r ok).1 = .success → (q.push r ok).2.sqHead = (q.push r ok).2.sqTail

/-- A ring recovers if and only if nothing is pending in it. -/
theorem recovers_iff_count (hi : SqInv k q.sq none 0) (hpoll : q.isSqPoll = false) :
    Recovers q ↔ q.sq.count = 0 := by
  cases hfull : noSqSlot q.sqTail q.sqHead q.sqMask with
  | true =>
      have hcount : q.sq.count = q.sq.mask.toNat + 1 := hi.noSqSlot_iff.mp hfull
      refine iff_of_false (fun hrec => ?_) (by omega)
      have := hrec.next (writeFrom 0)
      rw [push_refused hfull] at this
      cases this
  | false =>
      have hempty : ∀ r ok, (q.push r ok).2.sqHead = (q.push r ok).2.sqTail ↔
          q.sq.count + (if ok then 0 else 1) = 0 := by
        intro r ok
        rw [← count_push hi hpoll r ok hfull]
        exact eq_iff_toNat_sub
      have hres : ∀ r ok, (q.push r ok).1 = if ok then .success else .wakeFailed := by
        intro r ok
        rw [push_granted hpoll hfull]
      refine ⟨fun hrec => ?_, fun hz => ⟨?_, ?_⟩⟩
      · exact (hempty (writeFrom 0) true).mp (hrec.all _ _ (hrec.next _))
      · intro r
        exact hres r true
      · intro r ok hsuccess
        cases ok with
        | true => exact (hempty r true).mpr hz
        | false =>
            rw [hres] at hsuccess
            cases hsuccess

/-- Nothing is pending after a call if nothing was before, and the call is not a push whose
`io_uring_enter` fails. -/
theorem count_call (hi : SqInv k q.sq none 0) (hpoll : q.isSqPoll = false)
    (h : CallStep q c q') :
    q'.sq.count = 0 ↔ q.sq.count = 0 ∧ ∀ r res, c ≠ .push r false res := by
  cases h with
  | push r ok =>
      cases hfull : noSqSlot q.sqTail q.sqHead q.sqMask with
      | true =>
          -- a full ring stays as it is
          have hcount : q.sq.count = q.sq.mask.toNat + 1 := hi.noSqSlot_iff.mp hfull
          rw [push_refused hfull]
          refine iff_of_false ?_ (fun h => ?_)
          · show ¬ q.sq.count = 0
            omega
          · have := h.1
            omega
      | false =>
          rw [count_push hi hpoll r ok hfull]
          cases ok <;> simp
  | pop k ok => simp [(pop_sq q k ok).1]
  | complete res h =>
      show q.sq.count = 0 ↔ _
      simp

theorem call_sqInv (hi : SqInv k q.sq none 0) (hpoll : q.isSqPoll = false)
    (h : CallStep q c q') : SqInv k q'.sq none 0 := by
  obtain ⟨tr, hrun⟩ := reach_call hpoll h
  exact run_sqInv (s := idle q) hi hrun

/-- **When a ring without SQPOLL recovers**: as long as no `io_uring_enter` of a push has failed.
After the first that has, no push ever leaves the ring empty again. -/
theorem recovers_iff {tr : List Call} (hq : q.SqSetUp) (hpoll : q.isSqPoll = false)
    (h : Run CallStep q tr q') : Recovers q' ↔ ∀ r res, .push r false res ∉ tr := by
  obtain ⟨k, h₀⟩ := hq.inv
  have hzero : q.sq.count = 0 := eq_iff_toNat_sub.mp hq.start
  have hinv := h.invariant (I := fun tr s => SqInv k s.sq none 0 ∧ s.isSqPoll = false ∧
    (s.sq.count = 0 ↔ ∀ r res, .push r false res ∉ tr)) ⟨h₀, hpoll, by simp [hzero]⟩ ?_
  · obtain ⟨hi, hpoll', hcount⟩ := hinv
    rw [recovers_iff_count hi hpoll', hcount]
  · intro tr s c s' _ ⟨hi, hpoll, hcount⟩ hstep
    refine ⟨call_sqInv hi hpoll hstep, call_isSqPoll hpoll hstep, ?_⟩
    rw [count_call hi hpoll hstep, hcount]
    simp only [List.mem_append, List.mem_singleton, not_or, forall_and, ne_eq, eq_comm]

/-- Two entries, and counters about to wrap: a failure of a pop's `io_uring_enter` does no harm. -/
theorem recovers_iff_wrap :
    ∃ tr s, Run CallStep (fresh 1 0xFFFFFFFF false) tr s ∧ s.sqTail = 1 ∧ Recovers s := by
  have h₁ := CallStep.push (fresh 1 0xFFFFFFFF false) (writeFrom 0) true
  have h₂ := CallStep.pop (push (fresh 1 0xFFFFFFFF false) (writeFrom 0) true).2 .write false
  have h := ((Run.single h₁).snoc h₂).snoc (CallStep.push _ (writeFrom 16) true)
  exact ⟨_, _, h, rfl, (recovers_iff ⟨⟨1, by decide, rfl⟩, rfl⟩ rfl h).mpr (by simp)⟩

/-- It is not so that a ring always recovers: one of a single entry is full for ever once a push's
`io_uring_enter` has failed. -/
theorem not_always_recovers :
    ¬ ∀ (q : EventedIo) (tr : List Call) (q' : EventedIo), q.SqSetUp → q.isSqPoll = false →
      Run CallStep q tr q' → Recovers q' := by
  intro hall
  have hrec := hall (fresh 0 0 false) _ _ ⟨⟨0, by decide, rfl⟩, rfl⟩ rfl
    (.single (.push _ (writeFrom 0) false))
  have hfull : (((fresh 0 0 false).push (writeFrom 0) false).2.push (writeFrom 16) true).1 =
      .queueIsFull := rfl
  have := hrec.next (writeFrom 16)
  rw [hfull] at this
  cases this

end EventedIo

end Shclog
