import Shclog.UnboundedLinkedMPSCQ.Invariant
import Shclog.Lib.Fifo

/-! # `UnboundedLinkedMPSCQ` between calls

`push` and `pop` read straight through, for a thread that is alone. Then no link is missing from
the chain, and `pop` never has to give up: the last node of a chain gets the stub behind it. -/

namespace Shclog.UnboundedLinkedMPSCQ

open Lib

variable {T P : Type} [DecidableEq T]

/-! ## Calls that run to completion -/

/-- `push(n)`, alone. -/
def pushAll (q : UnboundedLinkedMPSCQ T) (n : Node T) : UnboundedLinkedMPSCQ T :=
  let q := q.setNext n none
  let prev := q.head
  { q with head := n }.setNext prev (some n)

/-- `enqueue`, alone. -/
def enqueue (q : UnboundedLinkedMPSCQ T) (x : T) : UnboundedLinkedMPSCQ T := pushAll q (.item x)

/-- `pop` from its second `if` on, with `next` loaded from `local_tail`. -/
def popFrom (q : UnboundedLinkedMPSCQ T) (local_tail : Node T) :
    Option (Node T) × UnboundedLinkedMPSCQ T :=
  match q.next local_tail with
  | some next => (some local_tail, { q with tail := next })
  | none =>
    if local_tail ≠ q.head then (none, q)
    else
      let q := pushAll q .stub
      match q.next local_tail with
      | some next => (some local_tail, { q with tail := next })
      | none => (none, q)

/-- `pop`, alone. -/
def pop (q : UnboundedLinkedMPSCQ T) : Option (Node T) × UnboundedLinkedMPSCQ T :=
  let local_tail := q.tail
  if local_tail = .stub then
    match q.next local_tail with
    | none => (none, q)
    | some next => popFrom { q with tail := next } next
  else popFrom q local_tail

theorem pushAll_next (q : UnboundedLinkedMPSCQ T) (n : Node T) :
    (pushAll q n).next q.head = some n := Function.update_self ..

section Exec

variable [DecidableEq P] {s : State T P} {p : P}

/-- A producer that moves alone does what `enqueue` says. -/
theorem exec_enqueue (hp : s.enq p = none) {x : T} (hx : s.held x = false) :
    ∃ tr, exec move s (.call p x :: List.replicate 3 (.enqueue p)) =
        some (tr, (s.enter p x).leave (enqueue s.queue x) p) ∧
      tr.getLast? = some (.linked (some (s.call p))) ∧ tr.filterMap Event.logOp? = [.push x] := by
  refine ⟨[.called (s.call p) x, .reset (some (s.call p)),
    .exchanged (some (s.call p)) (.item x) s.queue.head, .linked (some (s.call p))], ?_, rfl, rfl⟩
  simp only [exec, List.replicate, move, hp, hx, State.enter, Option.bind_eq_bind, Option.bind_some,
    Function.update_self, Option.map_some, enqueueStep, push, State.goto, State.leave,
    Function.update_idem]
  rfl

/-- The consumer, alone, from where it has loaded `next` from `t`. -/
theorem exec_popFrom {t : Node T}
    (hstep : dequeueStep s = giveOr s t (.unlinked, { s with deq := some (.loadHead t) })) :
    ∃ n tr s', exec move s (List.replicate n .dequeue) = some (tr, s') ∧
      s'.queue = (popFrom s.queue t).2 ∧ s'.enq = s.enq ∧ s'.deq = none ∧
      tr.filterMap Event.result? = [(popFrom s.queue t).1] ∧
      tr.filterMap Event.logOp? = (popFrom s.queue t).1.toList.map .pop := by
  cases hnext : s.queue.next t with
  | some next =>
      rw [giveOr, hnext] at hstep
      have hpop : popFrom s.queue t = (some t, { s.queue with tail := next }) := by
        rw [popFrom, hnext]
      rw [hpop]
      refine ⟨1, [.dequeued t], s.give t next, ?_, rfl, rfl, rfl, rfl, rfl⟩
      simp [exec, move, hstep]
  | none =>
      rw [giveOr, hnext] at hstep
      by_cases hhead : t = s.queue.head
      · -- the push of the stub puts it right behind `t`
        have hlink : (pushAll s.queue .stub).next t = some .stub := by
          rw [hhead]
          exact pushAll_next _ _
        have hpop : popFrom s.queue t =
            (some t, { pushAll s.queue .stub with tail := .stub }) := by
          rw [popFrom, hnext]
          dsimp only
          rw [if_neg (not_not.mpr hhead), hlink]
        rw [hpop]
        refine ⟨6, [.unlinked, .alone, .reset none, .exchanged none .stub s.queue.head, .linked none,
          .dequeued t], State.give { s with queue := pushAll s.queue .stub } t .stub, ?_, rfl, rfl,
          rfl, rfl, rfl⟩
        have hload : dequeueStep { s with deq := some (.loadHead t) } =
            (.alone, { s with deq := some (.push t (.reset .stub)) }) :=
          if_neg (not_not.mpr hhead)
        have hpush : exec move { s with deq := some (.push t (.reset .stub)) }
            (List.replicate 3 (.dequeue : Move T P)) =
            some ([.reset none, .exchanged none .stub s.queue.head, .linked none],
              { s with queue := pushAll s.queue .stub, deq := some (.recheck t) }) := rfl
        have hrecheck : dequeueStep { s with
            queue := pushAll s.queue .stub, deq := some (.recheck t) } =
            (.dequeued t, State.give { s with queue := pushAll s.queue .stub } t .stub) := by
          rw [dequeueStep]
          dsimp only
          rw [giveOr]
          dsimp only
          rw [hlink]
          rfl
        have hbefore : exec move s (List.replicate 2 (.dequeue : Move T P)) =
            some ([.unlinked, .alone], { s with deq := some (.push t (.reset .stub)) }) := by
          simp [exec, List.replicate, move, hstep, hload]
        refine exec_append hbefore (exec_append hpush ?_)
        simp [exec, move, hrecheck]
      · have hpop : popFrom s.queue t = (none, s.queue) := by
          rw [popFrom, hnext]
          exact if_pos hhead
        rw [hpop]
        refine ⟨2, [.unlinked, .empty], { s with deq := none }, ?_, rfl, rfl, rfl, rfl, rfl⟩
        have hload : dequeueStep { s with deq := some (.loadHead t) } =
            (.empty, { s with deq := none }) := if_pos hhead
        simp [exec, List.replicate, move, hstep, hload]

/-- The consumer, alone, does what `pop` says. -/
theorem exec_dequeue (hd : s.deq = none) :
    ∃ n tr s', exec move s (List.replicate n .dequeue) = some (tr, s') ∧
      s'.queue = (pop s.queue).2 ∧ s'.enq = s.enq ∧ s'.deq = none ∧
      tr.filterMap Event.result? = [(pop s.queue).1] ∧
      tr.filterMap Event.logOp? = (pop s.queue).1.toList.map .pop := by
  unfold pop
  dsimp only
  split
  · next htail =>
      cases hnext : s.queue.next s.queue.tail with
      | none =>
          refine ⟨1, [.empty], s, ?_, rfl, rfl, hd, rfl, rfl⟩
          have hstep : dequeueStep s = (.empty, s) := by
            rw [dequeueStep, hd]
            dsimp only
            rw [if_pos htail, hnext]
          simp [exec, move, hstep]
      | some next =>
          -- one step off the stub, and on from there
          have hstep : dequeueStep s = (.skipped,
              { s with queue := { s.queue with tail := next }, deq := some (.next next) }) := by
            rw [dequeueStep, hd]
            dsimp only
            rw [if_pos htail, hnext]
          obtain ⟨n, tr, s', hexec, hqueue, henq, hdeq, hres, hlog⟩ :=
            exec_popFrom (s := { s with
              queue := { s.queue with tail := next }, deq := some (.next next) }) (t := next) rfl
          refine ⟨n + 1, .skipped :: tr, s', ?_, hqueue, henq, hdeq, hres, hlog⟩
          rw [List.replicate_succ]
          simp [exec, move, hstep, hexec]
  · next htail =>
      apply exec_popFrom
      rw [dequeueStep, hd]
      exact if_neg htail

end Exec

/-! ## The queue as the list of what is in it -/

section Quiet

variable {s : State T P} {g : Log T} {C : List (Node T)}

omit [DecidableEq T] in
theorem not_pending (hq : s.Quiescent) (a b : Node T) : ¬ Pending s.pushing a b := by
  rintro ⟨w, hw⟩
  cases w with
  | some p =>
      rw [State.pushing, hq.1] at hw
      cases hw
  | none =>
      rw [State.pushing, hq.2] at hw
      cases hw

/-- With no link missing, what comes after the first `if` of `pop` always hands out `tail`. -/
theorem popFrom_tail {q : UnboundedLinkedMPSCQ T} {pending : Node T → Node T → Prop}
    (hchain : Chain q.next pending q.tail q.head C) (hnone : ∀ a b, ¬ pending a b) :
    (popFrom q q.tail).1 = some q.tail := by
  unfold popFrom
  cases hnext : q.next q.tail with
  | some next => rfl
  | none =>
      have hhead : q.tail = q.head :=
        (hchain.ends_or_hole hnext).resolve_right fun ⟨b, hpend⟩ => hnone _ b hpend
      dsimp only
      rw [if_neg (not_not.mpr hhead), hhead, pushAll_next]

/-- `pop`, alone, comes back with nothing only when there is nothing. -/
theorem Inv.pop_isSome (hi : Inv s g C) (hq : s.Quiescent) (hne : g.pending ≠ []) :
    (pop s.queue).1.isSome := by
  have hchain := hi.links.chain
  unfold UnboundedLinkedMPSCQ.pop
  dsimp only
  split
  · next htail =>
      cases hnext : s.queue.next s.queue.tail with
      | none =>
          -- the stub is the whole chain
          exfalso
          apply hne
          have hhead : s.queue.tail = s.queue.head :=
            (hchain.ends_or_hole hnext).resolve_right fun ⟨b, hpend⟩ => not_pending hq _ b hpend
          rw [← hhead] at hchain
          rw [hi.items, hchain.eq_singleton, htail]
          rfl
      | some next =>
          obtain ⟨C', -, hlinks, -⟩ := hi.links.advance hnext
          have hsome := popFrom_tail hlinks.chain (not_pending hq)
          exact Option.isSome_of_eq_some hsome
  · exact Option.isSome_of_eq_some (popFrom_tail hchain (not_pending hq))

/-- Who holds what is only ever asked of what is in the chain. -/
theorem Inv.reheld (hi : Inv s g C) (hq : s.Quiescent) :
    ∃ held, Inv { s with held := held } g C ∧ ∀ x, held x = true → x ∈ g.pending := by
  refine ⟨fun x => decide (x ∈ g.pending), ⟨hi.links, hi.items, ?_, ?_, hi.consumer, hi.local_tail⟩,
    fun x hx => of_decide_eq_true hx⟩
  · intro x hx
    apply decide_eq_true
    rw [hi.items]
    exact List.mem_filterMap.mpr ⟨.item x, hx, rfl⟩
  · intro p pc hp
    rw [hq.1] at hp
    cases hp

variable [DecidableEq P]

/-- A lone `enqueue` appends its item. -/
theorem Inv.lone_enqueue (hi : Inv s g C) (hq : s.Quiescent) (p : P) {x : T}
    (hx : s.held x = false) :
    ∃ C', Inv ((s.enter p x).leave (enqueue s.queue x) p) (g.push x) C' := by
  obtain ⟨tr, hexec, -, hlog⟩ := exec_enqueue (hq.1 p) hx
  obtain ⟨g', hrun, hi'⟩ := (Run.of_exec step_of_move hexec).simulate ⟨C, hi⟩
    fun _ _ _ _ hi hs => step_inv hi hs
  rw [hlog] at hrun
  cases Run.single_iff.mp hrun
  exact hi'

/-- A lone `dequeue` returns the oldest item, or null when there is none, and removes it. -/
theorem Inv.lone_dequeue (hi : Inv s g C) (hq : s.Quiescent) :
    ∃ n tr s', exec move s (List.replicate n .dequeue) = some (tr, s') ∧
      s'.queue = (pop s.queue).2 ∧ s'.Quiescent ∧
      (pop s.queue).1 = (g.pending.map Node.item).head? ∧
      tr.filterMap Event.result? = [(pop s.queue).1] ∧
      ∃ g' C', Inv s' g' C' ∧ g'.pending = g.pending.tail := by
  obtain ⟨n, tr, s', hexec, hqueue, henq, hdeq, hres, hlog⟩ := exec_dequeue hq.2
  obtain ⟨g', hrun, C', hi'⟩ := (Run.of_exec step_of_move hexec).simulate ⟨C, hi⟩
    fun _ _ _ _ hi hs => step_inv hi hs
  have hq' : s'.Quiescent := ⟨fun p => by rw [henq, hq.1], hdeq⟩
  suffices h : (UnboundedLinkedMPSCQ.pop s.queue).1 = (g.pending.map Node.item).head? ∧
      g'.pending = g.pending.tail from
    ⟨n, tr, s', hexec, hqueue, hq', h.1, hres, g', C', hi', h.2⟩
  rw [hlog] at hrun
  cases hret : (UnboundedLinkedMPSCQ.pop s.queue).1 with
  | none =>
      have hnil : g.pending = [] := by
        by_contra hne
        have hsome := hi.pop_isSome hq hne
        rw [hret] at hsome
        cases hsome
      rw [hret] at hrun
      rw [Run.nil_iff.mp hrun, hnil]
      exact ⟨rfl, rfl⟩
  | some n =>
      rw [hret] at hrun
      obtain ⟨hhead, hrest⟩ := (Run.single_iff.mp hrun).pending_pop
      exact ⟨hhead.symm, hrest⟩

/-- Calling `dequeue` again and again, as the destructor does, returns everything that is in the
queue before it first returns null. -/
theorem Inv.drain (hi : Inv s g C) (hq : s.Quiescent) :
    ∃ n tr s', exec move s (List.replicate n .dequeue) = some (tr, s') ∧
      tr.filterMap Event.result? = (g.pending.map Node.item).map some ++ [none] := by
  generalize hl : g.pending = l
  induction l generalizing s g C with
  | nil =>
      obtain ⟨n, tr, s', hexec, -, -, hret, hres, -⟩ := hi.lone_dequeue hq
      refine ⟨n, tr, s', hexec, ?_⟩
      rw [hres, hret, hl]
      rfl
  | cons x l ih =>
      obtain ⟨n₁, tr₁, m, hexec₁, -, hqm, hret, hres₁, g', C', him, hg'⟩ := hi.lone_dequeue hq
      obtain ⟨n₂, tr₂, s', hexec₂, hres₂⟩ := ih him hqm (by rw [hg', hl]; rfl)
      refine ⟨n₁ + n₂, tr₁ ++ tr₂, s', ?_, ?_⟩
      · rw [← List.replicate_append_replicate]
        exact exec_append hexec₁ hexec₂
      · rw [List.filterMap_append, hres₁, hres₂, hret, hl]
        rfl

end Quiet

/-! ## Sequential use -/

/-- The queue in the hands of one thread. `container_of` makes an item of the node that `pop`
returns, and makes no sense for the stub. -/
def asFifo : FifoImpl (UnboundedLinkedMPSCQ T) T where
  put q x := some (true, enqueue q x)
  take q :=
    match pop q with
    | (none, q') => some (none, q')
    | (some n, q') => n.item?.map fun x => (some x, q')

/-- Between calls, the queue `q` holds the list `l`. -/
def Holds (q : UnboundedLinkedMPSCQ T) (l : List T) : Prop :=
  ∃ (s : State T Unit) (g : Log T) (C : List (Node T)), s.queue = q ∧ s.Quiescent ∧ Inv s g C ∧
    g.pending = l

omit [DecidableEq T] in
theorem holds_new : Holds (new : UnboundedLinkedMPSCQ T) [] :=
  ⟨State.init, Log.empty, [.stub], rfl, ⟨fun _ => rfl, rfl⟩, init_inv, rfl⟩

theorem Holds.put {q : UnboundedLinkedMPSCQ T} {l : List T} (h : Holds q l) {x : T} (hx : x ∉ l) :
    ∃ q', asFifo.put q x = some (true, q') ∧ Holds q' (l ++ [x]) := by
  obtain ⟨s, g, C, rfl, hq, hi, rfl⟩ := h
  obtain ⟨held, hi', hheld⟩ := hi.reheld hq
  have hfree : held x = false := by
    cases hb : held x with
    | false => rfl
    | true => exact absurd (hheld x hb) hx
  obtain ⟨C', hi''⟩ := hi'.lone_enqueue ⟨hq.1, hq.2⟩ () hfree
  refine ⟨enqueue s.queue x, rfl, _, g.push x, C', rfl, ?_, hi'', Log.pending_push ..⟩
  refine ⟨?_, hq.2⟩
  intro p
  simp [State.leave]

theorem Holds.take {q : UnboundedLinkedMPSCQ T} {l : List T} (h : Holds q l) :
    ∃ q', asFifo.take q = some (l.head?, q') ∧ Holds q' l.tail := by
  obtain ⟨s, g, C, rfl, hq, hi, rfl⟩ := h
  obtain ⟨-, -, s', -, hqueue, hq', hret, -, g', C', hi', hg'⟩ := hi.lone_dequeue hq
  refine ⟨(pop s.queue).2, ?_, s', g', C', hqueue, hq', hi', hg'⟩
  have hpair : pop s.queue = ((pop s.queue).1, (pop s.queue).2) := rfl
  rw [asFifo]
  dsimp only
  rw [hpair, hret]
  cases g.pending <;> rfl

end Shclog.UnboundedLinkedMPSCQ
