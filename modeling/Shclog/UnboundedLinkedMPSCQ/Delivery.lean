import Shclog.UnboundedLinkedMPSCQ.Invariant

/-! # `UnboundedLinkedMPSCQ` delivers exactly once, in exchange order

`run_log` lifts the invariant to whole runs: a run of the queue is, exchange by exchange and item
by item, a run of a log, in which the stub does not appear. The calls of producers are accounted
for apart from that (`run_calls`). -/

namespace Shclog.UnboundedLinkedMPSCQ

open Lib

variable {T P : Type} [DecidableEq T] {tr : List (Event T P)} {e : Event T P} {s s' : State T P}

/-! ## Runs of the queue are runs of a log -/

theorem map_item_filterMap (l : List (Node T)) :
    (l.filterMap Node.item?).map Node.item = l.filter (· ≠ .stub) := by
  induction l with
  | nil => rfl
  | cons n l ih =>
      cases n with
      | stub =>
          rw [List.filterMap_cons_none rfl, List.filter_cons_of_neg (by simp)]
          exact ih
      | item x =>
          rw [List.filter_cons_of_pos (by simp), ← ih]
          rfl

variable [DecidableEq P]

/-- **Refinement.** A run of the queue is a run of the log of its exchanges. -/
theorem run_log (h : Run Step State.init tr s) :
    ∃ g, Run (Log.Step Node.item) Log.empty (tr.filterMap Event.logOp?) g ∧ ∃ C, Inv s g C :=
  h.simulate ⟨_, init_inv⟩ fun _ _ _ _ hi hs => step_inv hi hs

/-- The invariant after a run, at the log the run itself shows. -/
theorem run_inv (h : Run Step State.init tr s) :
    ∃ g C, Inv s g C ∧ g.pushed = (exchanged tr).filterMap Node.item? ∧
      g.popped = (delivered tr).length ∧
      delivered tr = (((exchanged tr).filterMap Node.item?).take (delivered tr).length).map
        Node.item := by
  obtain ⟨g, hrun, C, hi⟩ := run_log h
  refine ⟨g, C, hi, ?_⟩
  have hpush : ∀ e : Event T P, e.logOp?.bind Log.Op.pushed? = e.exchanged?.bind Node.item? := by
    intro e
    cases e with
    | exchanged who n prev => cases n <;> rfl
    | _ => rfl
  have hpop : ∀ e : Event T P, e.logOp?.bind Log.Op.popped? = e.dequeued? := by
    intro e
    cases e with
    | exchanged who n prev => cases n <;> rfl
    | _ => rfl
  have hreads := Log.run_reads hpush hpop hrun
  rwa [← List.filterMap_filterMap] at hreads

/-! ## Calls and their exchanges -/

/-- The node a producer is pushing, and whether it has been exchanged into `head`. -/
def Push.stage (pc : Push T) : Node T × Bool := (pc.node, !pc.outside)

omit [DecidableEq P] in
/-- The consumer's steps are none of a producer's. -/
theorem dequeueStep_frame (s : State T P) :
    (dequeueStep s).2.enq = s.enq ∧ (dequeueStep s).2.calls = s.calls ∧
      (dequeueStep s).1.called? = none ∧ (dequeueStep s).1.filed? = none ∧
      (dequeueStep s).1.returned? = none := by
  have hgive : ∀ t (otherwise : Event T P × State T P),
      otherwise.2.enq = s.enq → otherwise.2.calls = s.calls → otherwise.1.called? = none →
      otherwise.1.filed? = none → otherwise.1.returned? = none →
      (giveOr s t otherwise).2.enq = s.enq ∧ (giveOr s t otherwise).2.calls = s.calls ∧
        (giveOr s t otherwise).1.called? = none ∧ (giveOr s t otherwise).1.filed? = none ∧
        (giveOr s t otherwise).1.returned? = none := by
    intro t otherwise h₁ h₂ h₃ h₄ h₅
    unfold giveOr
    cases s.queue.next t with
    | none => exact ⟨h₁, h₂, h₃, h₄, h₅⟩
    | some next => exact ⟨rfl, rfl, rfl, rfl, rfl⟩
  unfold dequeueStep
  cases s.deq with
  | none =>
      dsimp only
      split
      · cases s.queue.next s.queue.tail <;> exact ⟨rfl, rfl, rfl, rfl, rfl⟩
      · exact hgive _ _ rfl rfl rfl rfl rfl
  | some pc =>
      cases pc with
      | next t => exact hgive _ _ rfl rfl rfl rfl rfl
      | loadHead t =>
          dsimp only
          split
          · exact ⟨rfl, rfl, rfl, rfl, rfl⟩
          · exact ⟨rfl, rfl, rfl, rfl, rfl⟩
      | push t pc => cases pc <;> exact ⟨rfl, rfl, rfl, rfl, rfl⟩
      | recheck t => exact hgive _ _ rfl rfl rfl rfl rfl

theorem calls_step
    (hc : ThreadCalls Event.called? Event.filed? Event.returned? Push.stage s.calls s.enq tr)
    (h : Step s e s') :
    ThreadCalls Event.called? Event.filed? Event.returned? Push.stage s'.calls s'.enq
      (tr ++ [e]) := by
  cases h with
  | call hp hx => exact hc.call hp rfl rfl rfl rfl
  | enqueue hp =>
      rename_i p pc
      cases pc with
      | reset n => exact hc.goto hp rfl rfl (Or.inl ⟨rfl, rfl⟩)
      | exchange n => exact hc.goto hp rfl rfl (Or.inr ⟨n, rfl, rfl, rfl⟩)
      | link n prev => exact hc.leave hp rfl rfl rfl rfl
  | dequeue =>
      obtain ⟨henq, hcalls, hcalled, hfiled, hreturned⟩ := dequeueStep_frame s
      rw [henq, hcalls]
      exact hc.skip hcalled hfiled hreturned

theorem run_calls (h : Run Step State.init tr s) :
    ThreadCalls Event.called? Event.filed? Event.returned? Push.stage s.calls s.enq tr :=
  h.invariant (I := fun tr s => ThreadCalls Event.called? Event.filed? Event.returned?
    Push.stage s.calls s.enq tr) ThreadCalls.nil fun _ _ _ _ _ hc hs => calls_step hc hs

omit [DecidableEq T] [DecidableEq P] in
theorem mem_called {c : Call P} {n : Node T} (h : (c, n) ∈ tr.filterMap Event.called?) :
    ∃ x, n = .item x ∧ .called c x ∈ tr := by
  obtain ⟨e, he, hev⟩ := List.mem_filterMap.mp h
  cases e with
  | called c' x =>
      cases hev
      exact ⟨x, rfl, he⟩
  | _ => cases hev

/-! ## The theorem -/

/-- What a run of producers and a consumer promises. -/
structure HandsOut (tr : List (Event T P)) : Prop where
  /-- nothing lost, repeated or reordered -/
  inOrder : delivered tr <+: (exchanged tr).filter (· ≠ .stub)
  no_stub : .stub ∉ delivered tr
  /-- a call that has returned put its item into the queue, once -/
  once : ∀ c, .linked (some c) ∈ tr →
    ∃ x, .called c x ∈ tr ∧ (filed tr).filter (·.1 = c) = [(c, .item x)]

/-- **`UnboundedLinkedMPSCQ` delivers exactly once, in the order of the exchanges on `head`**: any
producers, each with an item that is its own to give, and any interleaving. -/
theorem hands_out (h : Run Step State.init tr s) : HandsOut tr := by
  obtain ⟨g, C, -, -, -, hdel⟩ := run_inv h
  have hpref : delivered tr <+: (exchanged tr).filter (· ≠ .stub) := by
    rw [hdel, ← map_item_filterMap]
    exact (List.take_prefix _ _).map Node.item
  refine ⟨hpref, ?_, ?_⟩
  · intro hmem
    have := hpref.subset hmem
    simp at this
  · intro c hc
    obtain ⟨n, hcalled, hfiled⟩ :=
      (run_calls h).once (List.mem_filterMap.mpr ⟨.linked (some c), hc, rfl⟩)
    obtain ⟨x, rfl, hx⟩ := mem_called hcalled
    exact ⟨x, hx, hfiled⟩

/-- A producer exchanges `head` after the consumer has loaded it and before the consumer pushes the
stub: the first item has to wait for the producer's link, and is delivered then. -/
theorem hands_out_race : ∃ (tr : List (Event Nat (Fin 2))) (s : State Nat (Fin 2)),
    Run Step State.init tr s ∧ exchanged tr = [.item 1, .item 2, .stub] ∧
      delivered tr = [.item 1, .item 2] ∧ HandsOut tr :=
  have h := Run.of_exec (step_of_move (T := Nat) (P := Fin 2))
    (show exec move State.init
      [.call 0 1, .enqueue 0, .enqueue 0, .enqueue 0, .dequeue, .dequeue, .dequeue,
        .call 1 2, .enqueue 1, .enqueue 1, .dequeue, .dequeue, .dequeue, .dequeue,
        .enqueue 1, .dequeue, .dequeue] = some _ from rfl)
  ⟨_, _, h, rfl, rfl, hands_out h⟩

end Shclog.UnboundedLinkedMPSCQ
