import Shclog.UnboundedLinkedMPSCQ.Delivery
import Mathlib.Logic.Relation

/-! # No node is touched after it has been handed back

Whoever gets an item from `dequeue` may delete it at once, so nobody may still be about to write to
its node. An item is out when it has been returned as often as it was enqueued; `run_held` says that
the queue's own idea of what it holds is exactly that. What remains is about the chain: the nodes
that anybody is about to link to are in it, and so held. -/

namespace Shclog.UnboundedLinkedMPSCQ

open Lib

variable {T P : Type} {tr : List (Event T P)} {e : Event T P} {s s' : State T P} {g : Log T}
  {C : List (Node T)}

/-! ## The chain as the memory has it -/

/-- `b` is joined to `a`, by its link or by one that somebody is about to store. -/
def State.Joined (s : State T P) (a b : Node T) : Prop :=
  s.queue.next a = some b ∨ Pending s.pushing a b

/-- A node that can be reached from `tail`. -/
def State.InChain (s : State T P) (n : Node T) : Prop :=
  Relation.ReflTransGen s.Joined s.queue.tail n

theorem Inv.mem_of_inChain (hi : Inv s g C) {n : Node T} (h : s.InChain n) : n ∈ C := by
  induction h with
  | refl => exact hi.links.chain.first_mem
  | tail _ hjoin ih =>
      rcases hjoin with hnext | hpend
      · exact (hi.links.chain.follows_of_next ih hnext).mem_right
      · exact (hi.links.chain.hole _ _ hpend).1.mem_right

variable [DecidableEq T]

/-! ## What is held -/

/-- The item a step moves into the queue. -/
def Event.entered? : Event T P → Option T
  | .called _ x => some x
  | _ => none

/-- How often `x` has been enqueued. -/
def enqueues (tr : List (Event T P)) (x : T) : Nat := (tr.filterMap Event.entered?).count x

/-- How often `x` has been returned by `dequeue`. -/
def returns (tr : List (Event T P)) (x : T) : Nat := (delivered tr).count (.item x)

/-- A step of the consumer returns the first node of the chain, or no node. -/
theorem Inv.dequeueStep_cases (hi : Inv s g C) :
    (∃ next, s.queue.tail ≠ .stub ∧ s.queue.next s.queue.tail = some next ∧
      dequeueStep s = (.dequeued s.queue.tail, s.give s.queue.tail next)) ∨
    ((dequeueStep s).1.dequeued? = none ∧ (dequeueStep s).1.entered? = none ∧
      (dequeueStep s).2.held = s.held) := by
  have hgive : ∀ t (otherwise : Event T P × State T P),
      t = s.queue.tail ∧ s.queue.tail ≠ .stub → otherwise.1.dequeued? = none →
      otherwise.1.entered? = none → otherwise.2.held = s.held →
      (∃ next, s.queue.tail ≠ .stub ∧ s.queue.next s.queue.tail = some next ∧
        UnboundedLinkedMPSCQ.giveOr s t otherwise =
          (.dequeued s.queue.tail, s.give s.queue.tail next)) ∨
      ((UnboundedLinkedMPSCQ.giveOr s t otherwise).1.dequeued? = none ∧
        (UnboundedLinkedMPSCQ.giveOr s t otherwise).1.entered? = none ∧
        (UnboundedLinkedMPSCQ.giveOr s t otherwise).2.held = s.held) := by
    rintro t otherwise ⟨rfl, htail⟩ h₁ h₂ h₃
    unfold UnboundedLinkedMPSCQ.giveOr
    cases hnext : s.queue.next s.queue.tail with
    | none => exact Or.inr ⟨h₁, h₂, h₃⟩
    | some next => exact Or.inl ⟨next, htail, rfl, rfl⟩
  unfold dequeueStep
  cases hd : s.deq with
  | none =>
      dsimp only
      split
      · right
        cases s.queue.next s.queue.tail <;> exact ⟨rfl, rfl, rfl⟩
      · next htail => exact hgive _ _ ⟨rfl, htail⟩ rfl rfl rfl
  | some pc =>
      have hlocal := hi.local_tail pc hd
      cases pc with
      | next t => exact hgive t _ hlocal rfl rfl rfl
      | loadHead t =>
          right
          dsimp only
          split
          · exact ⟨rfl, rfl, rfl⟩
          · exact ⟨rfl, rfl, rfl⟩
      | push t pc =>
          right
          cases pc <;> exact ⟨rfl, rfl, rfl⟩
      | recheck t => exact hgive t _ hlocal rfl rfl rfl

variable [DecidableEq P]

/-- What a step moves into the queue is held from then on, what it returns no longer. -/
theorem step_held (hi : Inv s g C) (h : Step s e s') (x : T) :
    (if e.entered? = some x then 1 else 0) + (s.held x).toNat =
      (if e.dequeued? = some (.item x) then 1 else 0) + (s'.held x).toNat := by
  cases h with
  | @call p y hp hy =>
      by_cases hxy : x = y
      · subst hxy
        simp [Event.entered?, Event.dequeued?, State.enter, hy]
      · simp [Event.entered?, Event.dequeued?, State.enter, Function.update_of_ne hxy,
          Ne.symm hxy]
  | @enqueue p pc hp => cases pc <;> rfl
  | dequeue =>
      rcases hi.dequeueStep_cases with ⟨next, htail, -, heq⟩ | ⟨hdeq, hent, hheld⟩
      · rw [heq]
        by_cases hx : s.queue.tail = .item x
        · have := hi.held x (hx ▸ hi.links.chain.first_mem)
          simp [Event.entered?, Event.dequeued?, State.give, hx, this]
        · simp [Event.entered?, Event.dequeued?, State.give, hx]
      · rw [hdeq, hent, hheld]
        simp

/-- The queue holds an item exactly when it has been enqueued once more than returned. -/
theorem run_held (h : Run Step State.init tr s) (x : T) :
    enqueues tr x = returns tr x + (s.held x).toNat := by
  refine h.invariant (I := fun tr s => enqueues tr x = returns tr x + (s.held x).toNat) rfl ?_
  intro tr s e s' hrun ih hs
  obtain ⟨g, C, hi, -⟩ := run_inv hrun
  have hstep := step_held hi hs x
  have hcount : ∀ {β : Type} [DecidableEq β] (f : Event T P → Option β) (b : β),
      ((tr ++ [e]).filterMap f).count b = (tr.filterMap f).count b +
        (if f e = some b then 1 else 0) := by
    intro β _ f b
    rw [List.filterMap_append, List.count_append]
    cases hf : f e with
    | none => simp [hf]
    | some a => simp [hf, List.count_singleton]
  rw [enqueues, hcount, ← enqueues, returns, delivered, hcount, ← delivered, ← returns]
  omega

theorem returned_lt {x : T} (h : Run Step State.init tr s) (hx : s.held x = true) :
    returns tr x < enqueues tr x := by
  rw [run_held h x, hx]
  exact Nat.lt_succ_self _

/-! ## The nodes somebody is about to write to -/

/-- A producer about to link has just made its exchange, or has made it before, and then the step is
not one that returns the node it got back. -/
theorem link_of_step {g : Log T} {C : List (Node T)} (hi : Inv s g C) (hs : Step s e s') {p : P}
    {n prev : Node T} (hp : s'.enq p = some (.link n prev)) :
    e = .exchanged (some (s'.call p)) n prev ∨
      (s.enq p = some (.link n prev) ∧ s'.call p = s.call p ∧ e ≠ .dequeued prev) := by
  cases hs with
  | @call r x hr hx =>
      rcases eq_some_of_update hp with ⟨rfl, ⟨⟩⟩ | ⟨-, hp⟩
      exact Or.inr ⟨hp, rfl, fun h => by cases h⟩
  | @enqueue r pc hr =>
      cases pc with
      | reset m =>
          rcases eq_some_of_update hp with ⟨rfl, ⟨⟩⟩ | ⟨-, hp⟩
          exact Or.inr ⟨hp, rfl, fun h => by cases h⟩
      | exchange m =>
          rcases eq_some_of_update hp with ⟨rfl, ⟨⟩⟩ | ⟨-, hp⟩
          · exact Or.inl rfl
          · exact Or.inr ⟨hp, rfl, fun h => by cases h⟩
      | link m prev' =>
          rcases eq_some_of_update hp with ⟨rfl, ⟨⟩⟩ | ⟨hpr, hp⟩
          have hcall : (enqueueStep s r (.link m prev')).2.call p = s.call p :=
            Prod.ext rfl (Function.update_of_ne hpr _ _)
          exact Or.inr ⟨hp, hcall, fun h => by cases h⟩
  | dequeue =>
      obtain ⟨henq, hcalls, -⟩ := dequeueStep_frame s
      rw [henq] at hp
      refine Or.inr ⟨hp, by rw [State.call, hcalls]; rfl, ?_⟩
      rcases hi.dequeueStep_cases with ⟨next, htail, hnext, heq⟩ | ⟨hdeq, -, -⟩
      · -- what is returned leaves the chain, and `prev` stays in it
        obtain ⟨C', -, -, -, hprev⟩ := hi.links.advance hnext
        rw [heq]
        intro h
        exact hprev (some p) n prev hp (Event.dequeued.inj h).symm
      · intro h
        rw [h] at hdeq
        cases hdeq

/-- Since a producer exchanged `head`, the node it got back has not been returned. -/
theorem run_prev (h : Run Step State.init tr s) : ∀ p n prev, s.enq p = some (.link n prev) →
    ∃ tr₁ tr₂, tr = tr₁ ++ .exchanged (some (s.call p)) n prev :: tr₂ ∧ .dequeued prev ∉ tr₂ := by
  refine h.invariant (I := fun tr s => ∀ p n prev, s.enq p = some (.link n prev) →
    ∃ tr₁ tr₂, tr = tr₁ ++ .exchanged (some (s.call p)) n prev :: tr₂ ∧
      .dequeued prev ∉ tr₂) ?_ ?_
  · intro p n prev hp
    cases hp
  · intro tr s e s' hrun ih hs p n prev hp
    obtain ⟨g, C, hi, -⟩ := run_inv hrun
    rcases link_of_step hi hs hp with rfl | ⟨hp, hcall, hne⟩
    · exact ⟨tr, [], rfl, List.not_mem_nil⟩
    · obtain ⟨tr₁, tr₂, rfl, hno⟩ := ih p n prev hp
      refine ⟨tr₁, tr₂ ++ [e], by rw [hcall, List.append_assoc, List.cons_append], ?_⟩
      rw [List.mem_append, List.mem_singleton]
      rintro (hmem | rfl)
      · exact hno hmem
      · exact hne rfl

/-! ## The theorem -/

/-- What holds of the nodes that the threads of a run are about to touch. -/
structure Untouched (tr : List (Event T P)) (s : State T P) : Prop where
  /-- who is about to link to an item's node finds it held by the queue -/
  prev : ∀ p n x, s.enq p = some (.link n (.item x)) → returns tr x < enqueues tr x
  /-- and not returned at any time since its own exchange -/
  prev_since : ∀ p n prev, s.enq p = some (.link n prev) →
    ∃ tr₁ tr₂, tr = tr₁ ++ .exchanged (some (s.call p)) n prev :: tr₂ ∧ .dequeued prev ∉ tr₂
  tail : ∀ x, s.queue.tail = .item x → returns tr x < enqueues tr x
  head : ∀ x, s.queue.head = .item x → returns tr x < enqueues tr x
  /-- until the consumer's `push(&stub)` exchanges it, the stub is outside the chain and nobody is
  about to link to it -/
  stub : ∀ t pc, s.deq = some (.push t pc) → pc.outside →
    pc.node = .stub ∧ ¬ s.InChain .stub ∧ ∀ p n, s.enq p ≠ some (.link n .stub)

/-- **`UnboundedLinkedMPSCQ` never touches a node it has handed back**, nor pushes a stub that is
still linked: any producers, each with an item that is its own to give, and any interleaving. -/
theorem never_touches (h : Run Step State.init tr s) : Untouched tr s := by
  obtain ⟨g, C, hi, -⟩ := run_inv h
  have hchain := hi.links.chain
  refine ⟨?_, run_prev h, ?_, ?_, ?_⟩
  · intro p n x hp
    exact returned_lt h (hi.held x (hchain.hole _ _ ⟨some p, hp⟩).1.mem_left)
  · intro x hx
    exact returned_lt h (hi.held x (hx ▸ hchain.first_mem))
  · intro x hx
    exact returned_lt h (hi.held x (hx ▸ hchain.last_mem))
  · intro t pc hd hout
    have hnode := hi.consumer t pc hd
    have hw : s.pushing none = some pc := by rw [State.pushing, hd]
    have hnot : .stub ∉ C := hnode ▸ hi.links.outside none pc hw hout
    refine ⟨hnode, fun hin => hnot (hi.mem_of_inChain hin), ?_⟩
    intro p n hp
    exact hnot (hchain.hole _ _ ⟨some p, hp⟩).1.mem_left

/-- A producer has got the only item of the queue back from its exchange when the consumer is about
to push the stub behind it. -/
theorem never_touches_race : ∃ (tr : List (Event Nat (Fin 2))) (s : State Nat (Fin 2)),
    Run Step State.init tr s ∧ s.enq 1 = some (.link (.item 2) (.item 1)) ∧
      s.deq = some (.push (.item 1) (.reset .stub)) ∧ Untouched tr s :=
  have h := Run.of_exec (step_of_move (T := Nat) (P := Fin 2))
    (show exec move State.init
      [.call 0 1, .enqueue 0, .enqueue 0, .enqueue 0, .dequeue, .dequeue, .dequeue,
        .call 1 2, .enqueue 1, .enqueue 1] = some _ from rfl)
  ⟨_, _, h, rfl, rfl, never_touches h⟩

end Shclog.UnboundedLinkedMPSCQ
