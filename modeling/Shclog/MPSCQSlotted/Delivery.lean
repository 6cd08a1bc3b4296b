import Shclog.MPSCQSlotted.Invariant
import Shclog.Lib.Calls

/-! # `MPSCQSlotted` gives a cell to one ticket at a time

`run_log` lifts the invariant to whole runs: ticket by ticket and item by item, a run of the queue
is a run of a log. `serves` says what that means for the threads: who may be past the spin, what a
producer that still spins is waiting for, and what `dequeue` returns. -/

namespace Shclog.MPSCQSlotted

open Lib

variable {T P : Type} {k : Nat} {N : Usize} {tr : List (Event T P)} {e : Event T P}
  {s s' : State T P}

/-- A producer past the spin loop, with its pointer and its ticket. -/
def State.Past (s : State T P) (p : P) (v : Option T) (pos : Usize) : Prop :=
  s.enq p = some (.write v pos) ∨ s.enq p = some (.publish v pos)

/-- The items returned by a run's calls of `dequeue`, in order. -/
def delivered (tr : List (Event T P)) : List T := (results tr).filterMap id

/-- The items enqueued in a run, in the order of their tickets. -/
def items (tr : List (Event T P)) : List T := ((tickets tr).map Prod.snd).filterMap id

theorem delivered_eq (tr : List (Event T P)) : delivered tr = (dequeued tr).filterMap id := by
  rw [delivered, results, dequeued, List.filterMap_filterMap, List.filterMap_filterMap]
  congr 1
  funext e
  cases e <;> rfl

/-! ## Runs of the queue are runs of a log -/

section Runs

variable [DecidableEq P] [Fintype P]

/-- **Refinement.** A run of the queue is a run of the log of its tickets. -/
theorem run_log (hfit : 2 ^ k + Fintype.card P < 2 ^ 64) (hk : k < 64) (hk1 : 1 ≤ k)
    (h : Run (Step (BitVec.ofNat 64 (2 ^ k))) (State.init (new (BitVec.ofNat 64 (2 ^ k)))) tr s) :
    ∃ g, Run (Log.Step Prod.snd) Log.empty (tr.filterMap Event.logOp?) g ∧ Inv k s g :=
  h.simulate (init_inv hk) fun _ _ _ _ hi hs => step_inv hfit (Nat.le_of_lt hk) hk1 hi hs

/-- The invariant after a run, at the log the run itself shows. -/
theorem run_inv (hfit : 2 ^ k + Fintype.card P < 2 ^ 64) (hk : k < 64) (hk1 : 1 ≤ k)
    (h : Run (Step (BitVec.ofNat 64 (2 ^ k))) (State.init (new (BitVec.ofNat 64 (2 ^ k)))) tr s) :
    ∃ g, Inv k s g ∧ g.pushed = tickets tr ∧ g.popped = (dequeued tr).length ∧
      dequeued tr = ((tickets tr).take (dequeued tr).length).map Prod.snd := by
  obtain ⟨g, hrun, hi⟩ := run_log hfit hk hk1 h
  refine ⟨g, hi, Log.run_reads ?_ ?_ hrun⟩
  · intro e
    cases e <;> rfl
  · intro e
    cases e <;> rfl

end Runs

/-! ## Calls and their tickets -/

/-- The pointer a producer inside `enqueue` was called with, and whether it has its ticket. -/
def Enqueue.stage : Enqueue T → Option T × Bool
  | .ticket v => (v, false)
  | .spin v _ | .write v _ | .publish v _ => (v, true)

def Event.called? : Event T P → Option (Call P × Option T)
  | .called c v => some (c, v)
  | _ => none

def Event.returned? : Event T P → Option (Call P)
  | .returned c _ => some c
  | _ => none

theorem mem_called {c : Call P} {v : Option T} (h : (c, v) ∈ tr.filterMap Event.called?) :
    .called c v ∈ tr := by
  obtain ⟨e, he, hev⟩ := List.mem_filterMap.mp h
  cases e with
  | called c' v' =>
      cases hev
      exact he
  | _ => cases hev

/-- The consumer's steps are none of a producer's. -/
theorem dequeueStep_frame (N : Usize) (s : State T P) :
    (dequeueStep N s).2.enq = s.enq ∧ (dequeueStep N s).2.calls = s.calls ∧
      (dequeueStep N s).1.called? = none ∧ (dequeueStep N s).1.ticket? = none ∧
      (dequeueStep N s).1.returned? = none := by
  unfold dequeueStep
  cases s.deq with
  | none =>
      dsimp only
      split
      · exact ⟨rfl, rfl, rfl, rfl, rfl⟩
      · exact ⟨rfl, rfl, rfl, rfl, rfl⟩
  | some pc => cases pc <;> exact ⟨rfl, rfl, rfl, rfl, rfl⟩

theorem calls_step [DecidableEq P]
    (hc : ThreadCalls Event.called? Event.ticket? Event.returned? Enqueue.stage s.calls s.enq tr)
    (h : Step N s e s') :
    ThreadCalls Event.called? Event.ticket? Event.returned? Enqueue.stage s'.calls s'.enq
      (tr ++ [e]) := by
  cases h with
  | call v hp => exact hc.call hp rfl rfl rfl rfl
  | enqueue hp =>
      rename_i p pc
      cases pc with
      | ticket v => exact hc.goto hp rfl rfl (Or.inr ⟨v, rfl, rfl, rfl⟩)
      | spin v pos =>
          rw [enqueueStep]
          split
          · exact hc.goto hp rfl rfl (Or.inl ⟨rfl, rfl⟩)
          · exact hc.skip rfl rfl rfl
      | write v pos => exact hc.goto hp rfl rfl (Or.inl ⟨rfl, rfl⟩)
      | publish v pos => exact hc.leave hp rfl rfl rfl rfl
  | dequeue =>
      obtain ⟨henq, hcalls, hcalled, hticket, hreturned⟩ := dequeueStep_frame N s
      rw [henq, hcalls]
      exact hc.skip hcalled hticket hreturned

theorem run_calls [DecidableEq P] (h : Run (Step N) (State.init (new N)) tr s) :
    ThreadCalls Event.called? Event.ticket? Event.returned? Enqueue.stage s.calls s.enq tr :=
  h.invariant (I := fun tr s => ThreadCalls Event.called? Event.ticket? Event.returned?
    Enqueue.stage s.calls s.enq tr) ThreadCalls.nil fun _ _ _ _ _ hc hs => calls_step hc hs

/-! ## The theorem -/

/-- What a run of producers and a consumer on a queue of `N` cells promises; `s` is the state it
has come to. -/
structure Serves [DecidableEq P] (N : Usize) (tr : List (Event T P)) (s : State T P) : Prop where
  /-- no two producers are past the spin on one cell -/
  exclusive : ∀ p p' v v' pos pos', p ≠ p' → s.Past p v pos → s.Past p' v' pos' →
    pos &&& mask N ≠ pos' &&& mask N
  /-- who is about to write has position `i`, and what was `N` positions before is taken out -/
  writes : ∀ p v pos, s.enq p = some (.write v pos) → ∃ i,
    (tickets tr)[i]? = some (s.call p, v) ∧ pos = BitVec.ofNat 64 i ∧
      ∀ j, j + N.toNat = i → j < (dequeued tr).length
  /-- what is taken out of the cells is what was put in, ticket by ticket -/
  inOrder : dequeued tr <+: (tickets tr).map Prod.snd
  delivered_inOrder : delivered tr <+: items tr
  /-- a call that has returned put in the pointer it was called with, once -/
  once : ∀ c b, .returned c b ∈ tr →
    ∃ v, .called c v ∈ tr ∧ (tickets tr).filter (·.1 = c) = [(c, v)]
  /-- the stamp a spinning producer reads is never past its ticket, and is the ticket unless what
  was `N` positions before has yet to be taken out -/
  waits : ∀ p v pos, s.enq p = some (.spin v pos) → ∃ i,
    (tickets tr)[i]? = some (s.call p, v) ∧ pos = BitVec.ofNat 64 i ∧
      (∃ m, m ≤ i ∧ i < m + 2 ^ 64 ∧
        (s.queue.buffer (pos &&& mask N)).seq = BitVec.ofNat 64 m) ∧
      ((s.queue.buffer (pos &&& mask N)).seq ≠ pos ↔
        ∃ j, j + N.toNat = i ∧ (dequeued tr).length ≤ j)

/-- **`MPSCQSlotted` serves tickets in order, each in a cell of its own**: any producers, any
interleaving, any number of laps. The bound on threads keeps the tickets waiting for one cell from
going round the whole counter. -/
theorem serves [DecidableEq P] [Fintype P] (hN : 2 ≤ N.toNat) (hpow : N.toNat.isPowerOfTwo)
    (hP : N.toNat + Fintype.card P < 2 ^ 64) (h : Run (Step N) (State.init (new N)) tr s) :
    Serves N tr s := by
  obtain ⟨k, hk1, hk64, rfl⟩ := Usize.exists_of_isPowerOfTwo hN hpow
  have hk := Usize.toNat_two_pow hk64
  rw [hk] at hP
  obtain ⟨g, hi, hg, hpop, hdel⟩ := run_inv hP hk64 hk1 h
  have hpref : dequeued tr <+: (tickets tr).map Prod.snd := by
    rw [hdel]
    exact (List.take_prefix _ _).map Prod.snd
  have hpast : ∀ p v pos, s.Past p v pos → ∃ i, g.popped ≤ i ∧ i < g.popped + 2 ^ k ∧
      g.pushed[i]? = some (s.call p, v) ∧ pos = BitVec.ofNat 64 i := by
    rintro p v pos (hp | hp)
    · obtain ⟨i, hle, hget, hpos, hin⟩ := hi.entry p v pos (by rw [hp]; rfl)
      exact ⟨i, hle, hin (by rw [hp]; rfl), hget, hpos⟩
    · obtain ⟨i, hle, hget, hpos, hin⟩ := hi.entry p v pos (by rw [hp]; rfl)
      exact ⟨i, hle, hin (by rw [hp]; rfl), hget, hpos⟩
  refine ⟨?_, ?_, hpref, ?_, ?_, ?_⟩
  · intro p p' v v' pos pos' hne hp hp'
    obtain ⟨i, hile, hilt, hget, rfl⟩ := hpast p v pos hp
    obtain ⟨j, hjle, hjlt, hget', rfl⟩ := hpast p' v' pos' hp'
    rw [slot_eq, slot_eq]
    intro hslot
    have hij := slot_inj_window (Nat.le_of_lt hk64) hile hilt hjle hjlt hslot
    subst hij
    have hcall : s.call p = s.call p' :=
      congrArg Prod.fst (Option.some.inj (hget.symm.trans hget'))
    exact hne (congrArg Prod.fst hcall)
  · intro p v pos hp
    obtain ⟨i, -, hilt, hget, hpos⟩ := hpast p v pos (Or.inl hp)
    refine ⟨i, hg ▸ hget, hpos, ?_⟩
    intro j hj
    omega
  · rw [delivered_eq, items]
    exact hpref.filterMap id
  · intro c b hret
    obtain ⟨v, hcalled, hfiled⟩ :=
      (run_calls h).once (List.mem_filterMap.mpr ⟨.returned c b, hret, rfl⟩)
    exact ⟨v, mem_called hcalled, hfiled⟩
  · intro p v pos hp
    obtain ⟨i, hle, hget, rfl, -⟩ := hi.entry p v pos (by rw [hp]; rfl)
    obtain ⟨m, hmi, hlap, hseq, -⟩ := hi.stamp hP (Nat.le_of_lt hk64) hk1 hp hle hget
    have hiff := hi.stamp_eq_iff hP (Nat.le_of_lt hk64) hk1 hp hle hget
    rw [slot_eq]
    refine ⟨i, hg ▸ hget, rfl, ⟨m, hmi, hlap, hseq⟩, ?_⟩
    rw [Ne, hiff, hk, ← hpop]
    constructor
    · intro hout
      exact ⟨i - 2 ^ k, by omega, by omega⟩
    · rintro ⟨j, hj, hjle⟩
      omega

/-- Two cells and three producers: the third has to wait for the first item to be taken out. -/
theorem serves_lap : ∃ (tr : List (Event Nat (Fin 3))) (s : State Nat (Fin 3)),
    Run (Step 2) (State.init (new 2)) tr s ∧ delivered tr = [5] ∧ items tr = [5, 6, 7] ∧
      Serves 2 tr s :=
  have h := Run.of_exec (step_of_move (T := Nat) (P := Fin 3) 2)
    (show exec (move 2) (State.init (new 2))
      [.call 0 (some 5), .call 1 (some 6), .call 2 (some 7), .enqueue 0, .enqueue 1, .enqueue 2,
        .enqueue 2, .enqueue 0, .enqueue 0, .enqueue 0, .enqueue 2, .dequeue, .dequeue, .dequeue,
        .enqueue 2, .dequeue] = some _ from rfl)
  ⟨_, _, h, rfl, rfl, serves (by decide) ⟨1, rfl⟩ (by simp) h⟩

end Shclog.MPSCQSlotted
