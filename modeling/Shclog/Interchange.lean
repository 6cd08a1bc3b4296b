import Shclog.MPSCQueue.Delivery
import Shclog.MPSCQueue.Sequential
import Shclog.MPSCQSlotted.Sequential
import Shclog.UnboundedLinkedMPSCQ.Sequential

/-! # The three queues are interchangeable

Used sequentially, with no more outstanding than the smallest of them takes, the three queues of
`mpsc_queue.hpp` answer every call as a plain list does, so none can be told from another. -/

namespace Shclog

open Lib

variable {T : Type} [DecidableEq T]

/-- **The three queues answer alike**: any sequence of calls that puts in different items and never
has more than `N` outstanding gets from each queue the answers of a plain list. -/
theorem queues_interchangeable {N : Usize} (hN : 2 ≤ N.toNat) (hpow : N.toNat.isPowerOfTwo)
    {ops : List (FifoOp T)} (hdistinct : (ops.filterMap FifoOp.put?).Nodup)
    (houtstanding : ∀ pre, pre <+: ops → (pre.foldl FifoOp.contents []).length ≤ N.toNat) :
    (∃ q, MPSCQueue.create N true true = .ok q ∧
      MPSCQueue.asFifo.run q ops = some (fifo [] ops)) ∧
    (MPSCQSlotted.asFifo N).run (MPSCQSlotted.new N) ops = some (fifo [] ops) ∧
    UnboundedLinkedMPSCQ.asFifo.run UnboundedLinkedMPSCQ.new ops = some (fifo [] ops) := by
  obtain ⟨k, hk1, hk, rfl⟩ := Usize.exists_of_isPowerOfTwo hN hpow
  rw [Usize.toNat_two_pow hk] at houtstanding
  refine ⟨⟨MPSCQueue.new _, MPSCQueue.create_two_pow hk1 hk, ?_⟩, ?_, ?_⟩
  · apply FifoImpl.run_eq_fifo (R := MPSCQueue.Holds k) ?_ ?_ MPSCQueue.holds_new hdistinct
      houtstanding
    · intro q l x h hlen _
      exact h.put hk hlen x
    · intro q l h
      exact h.take hk
  · apply FifoImpl.run_eq_fifo (R := MPSCQSlotted.Holds k) ?_ ?_ (MPSCQSlotted.holds_new hk)
      hdistinct houtstanding
    · intro q l x h hlen _
      exact h.put hk hk1 hlen x
    · intro q l h
      exact h.take hk hk1
  · apply FifoImpl.run_eq_fifo (R := UnboundedLinkedMPSCQ.Holds) ?_ ?_
      UnboundedLinkedMPSCQ.holds_new hdistinct houtstanding
    · intro q l x h _ hx
      exact h.put hx
    · intro q l h
      exact h.take

/-- Two cells, filled, emptied past the end and asked once too often. -/
theorem queues_interchangeable_wrap :
    let ops := [.put 1, .put 2, .take, .put 3, .take, .take, .take]
    fifo [] ops = [.put true, .put true, .took (some 1), .put true, .took (some 2),
      .took (some 3), .took none] ∧
    (∃ q, MPSCQueue.create (T := Nat) 2 true true = .ok q ∧
      MPSCQueue.asFifo.run q ops = some (fifo [] ops)) ∧
    (MPSCQSlotted.asFifo 2).run (MPSCQSlotted.new 2) ops = some (fifo [] ops) ∧
    UnboundedLinkedMPSCQ.asFifo.run UnboundedLinkedMPSCQ.new ops = some (fifo [] ops) := by
  intro ops
  have hroom : ∀ pre ∈ ops.inits, (pre.foldl FifoOp.contents []).length ≤ 2 := by decide
  refine ⟨rfl, queues_interchangeable (N := 2) (by decide) ⟨1, rfl⟩ (by decide) ?_⟩
  intro pre hpre
  exact hroom pre ((List.mem_inits pre ops).mpr hpre)

end Shclog
