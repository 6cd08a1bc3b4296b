import Mathlib.Data.List.Basic

/-! # Implementations of a first-in first-out list

Sequential calls on a queue, each run to completion before the next. A plain list says what they
should answer; an implementation answers the same if some relation to lists is kept by its two
operations, for as long as no more is put in than it promises to take. -/

namespace Shclog.Lib

/-- A call: something is put in, or what is oldest is to be taken out. -/
inductive FifoOp (α : Type*) where
  | put (a : α)
  | take

/-- What a call answers: whether the queue took what was put in, or what it gave, if anything. -/
inductive FifoResult (α : Type*) where
  | put (accepted : Bool)
  | took (r : Option α)
  deriving DecidableEq

namespace FifoOp

variable {α : Type*}

def put? : FifoOp α → Option α
  | .put a => some a
  | .take => none

/-- What is in the list after a call. -/
def contents (l : List α) : FifoOp α → List α
  | .put a => l ++ [a]
  | .take => l.tail

/-- What a list answers. -/
def result (l : List α) : FifoOp α → FifoResult α
  | .put _ => .put true
  | .take => .took l.head?

end FifoOp

/-- The answers of a plain list. -/
def fifo {α : Type*} : List α → List (FifoOp α) → List (FifoResult α)
  | _, [] => []
  | l, op :: ops => op.result l :: fifo (op.contents l) ops

/-- The two operations of an implementation; `none` is a call that does not return. -/
structure FifoImpl (Q α : Type*) where
  put : Q → α → Option (Bool × Q)
  take : Q → Option (Option α × Q)

namespace FifoImpl

variable {Q α : Type*}

/-- One call. -/
def call (impl : FifoImpl Q α) (q : Q) : FifoOp α → Option (FifoResult α × Q)
  | .put a => (impl.put q a).map fun r => (.put r.1, r.2)
  | .take => (impl.take q).map fun r => (.took r.1, r.2)

/-- A call that returns, as a step that shows what was called and what it answered. -/
def Step (impl : FifoImpl Q α) (q : Q) (e : FifoOp α × FifoResult α) (q' : Q) : Prop :=
  impl.call q e.1 = some (e.2, q')

/-- The answers of an implementation, if all calls return. -/
def run (impl : FifoImpl Q α) : Q → List (FifoOp α) → Option (List (FifoResult α))
  | _, [] => some []
  | q, op :: ops => (impl.call q op).bind fun r => (run impl r.2 ops).map (r.1 :: ·)

/-- **An implementation whose operations keep a relation to lists answers as the list does**, while
at most `n` things, all different, are in it. -/
theorem run_eq_fifo {impl : FifoImpl Q α} {R : Q → List α → Prop} {n : Nat}
    (hput : ∀ q l a, R q l → l.length < n → a ∉ l →
      ∃ q', impl.put q a = some (true, q') ∧ R q' (l ++ [a]))
    (htake : ∀ q l, R q l → ∃ q', impl.take q = some (l.head?, q') ∧ R q' l.tail)
    {ops : List (FifoOp α)} {q : Q} {l : List α} (hR : R q l)
    (hnodup : (l ++ ops.filterMap FifoOp.put?).Nodup)
    (hroom : ∀ pre, pre <+: ops → (pre.foldl FifoOp.contents l).length ≤ n) :
    impl.run q ops = some (fifo l ops) := by
  induction ops generalizing q l with
  | nil => rfl
  | cons op ops ih =>
      have hroom' : ∀ pre, pre <+: ops →
          (pre.foldl FifoOp.contents (op.contents l)).length ≤ n := by
        intro pre hpre
        exact hroom (op :: pre) ((List.prefix_cons_inj op).mpr hpre)
      -- the call answers as the list does, and leaves what the list then is
      have hcall : ∃ q', impl.call q op = some (op.result l, q') ∧ R q' (op.contents l) := by
        cases op with
        | put a =>
            have hlen : l.length + 1 ≤ n := by simpa [FifoOp.contents] using hroom' [] List.nil_prefix
            have ha : a ∉ l := by
              intro hmem
              exact (List.nodup_append.mp hnodup).2.2 a hmem a List.mem_cons_self rfl
            obtain ⟨q', hq, hR'⟩ := hput q l a hR hlen ha
            exact ⟨q', by rw [call, hq]; rfl, hR'⟩
        | take =>
            obtain ⟨q', hq, hR'⟩ := htake q l hR
            exact ⟨q', by rw [call, hq]; rfl, hR'⟩
      have hnodup' : (op.contents l ++ ops.filterMap FifoOp.put?).Nodup := by
        cases op with
        | put a =>
            rw [FifoOp.contents, List.append_assoc]
            exact hnodup
        | take =>
            refine hnodup.sublist ?_
            exact (List.tail_sublist l).append (List.Sublist.refl _)
      obtain ⟨q', hq, hR'⟩ := hcall
      rw [run, hq, Option.bind_some, ih hR' hnodup' hroom']
      rfl

end FifoImpl

end Shclog.Lib
