import Shclog.Bench.Report.Table

/-! # `TimeScale` and `ByteScale`

The two tables of `report.hpp`. -/

namespace Shclog

open Lib

namespace TimeScale

inductive Unit where
  | nanoseconds
  | microseconds
  | milliseconds
  | seconds
  | minutes
  | hours
  deriving DecidableEq

/-- `std::to_underlying`. -/
def Unit.index : Unit → Nat
  | nanoseconds => 0
  | microseconds => 1
  | milliseconds => 2
  | seconds => 3
  | minutes => 4
  | hours => 5

/-- `static_cast<Unit>`. -/
def Unit.ofIndex : Fin 6 → Unit
  | 0 => nanoseconds
  | 1 => microseconds
  | 2 => milliseconds
  | 3 => seconds
  | 4 => minutes
  | 5 => hours

def scale (u : Unit) : Eval IntType.usize.Val :=
  match u with
  | .nanoseconds | .microseconds | .milliseconds | .seconds => do
    let thousand ← Eval.intCastFloat .usize 1000
    ipow thousand u.index
  | .minutes => do
    let s ← scale .seconds
    Eval.arith .usize (s.val * 60)
  | .hours => do
    let m ← scale .minutes
    Eval.arith .usize (m.val * 60)
termination_by u.index
decreasing_by all_goals decide

/-- The micro sign takes two bytes. -/
def symbol : Unit → String
  | .nanoseconds => "ns"
  | .microseconds => "µs"
  | .milliseconds => "ms"
  | .seconds => "s"
  | .minutes => "m"
  | .hours => "h"

end TimeScale

namespace ByteScale

inductive Unit where
  | bytes
  | kibibytes
  | mebibytes
  | gibibytes
  | tebibytes
  | pebibytes
  | exbibytes
  deriving DecidableEq

/-- `static_cast<Unit>`. -/
def Unit.ofIndex : Fin 7 → Unit
  | 0 => bytes
  | 1 => kibibytes
  | 2 => mebibytes
  | 3 => gibibytes
  | 4 => tebibytes
  | 5 => pebibytes
  | 6 => exbibytes

/-- The shifts of `usize{1}` lose no bit. -/
def scale : Unit → Eval IntType.usize.Val
  | .bytes => pure 1
  | .kibibytes => Eval.arith .usize (1 * 2 ^ 10)
  | .mebibytes => Eval.arith .usize (1 * 2 ^ 20)
  | .gibibytes => Eval.arith .usize (1 * 2 ^ 30)
  | .tebibytes => Eval.arith .usize (1 * 2 ^ 40)
  | .pebibytes => Eval.arith .usize (1 * 2 ^ 50)
  | .exbibytes => Eval.arith .usize (1 * 2 ^ 60)

def symbol : Unit → String
  | .bytes => "B"
  | .kibibytes => "KiB"
  | .mebibytes => "MiB"
  | .gibibytes => "GiB"
  | .tebibytes => "TiB"
  | .pebibytes => "PiB"
  | .exbibytes => "EiB"

end ByteScale

/-- `UnitRepr<TimeScale>`. -/
def TimeUnit : UnitScale where
  last := 5
  scale i := (TimeScale.scale (.ofIndex i)).getD 0
  symbol i := bytesOf (TimeScale.symbol (.ofIndex i))

/-- `UnitRepr<ByteScale>`. -/
def ByteUnit : UnitScale where
  last := 6
  scale i := (ByteScale.scale (.ofIndex i)).getD 0
  symbol i := bytesOf (ByteScale.symbol (.ofIndex i))

/-- The scales are computed without loss. -/
theorem TimeUnit.scale_eq :
    ∀ i : Fin 6, TimeScale.scale (.ofIndex i) = pure (TimeUnit.scale i) := by
  decide +kernel

theorem ByteUnit.scale_eq :
    ∀ i : Fin 7, ByteScale.scale (.ofIndex i) = pure (ByteUnit.scale i) := by
  decide +kernel

namespace UnitScale

/-- A table that is let through, and has neither a last scale of zero nor a ratio that some type has
only the negation of. -/
structure Regular (S : UnitScale) : Prop where
  accepted : S.Accepted
  last_pos : 0 < S.size S.LAST
  not_negated : ∀ (T : IntType) (u t : S.Unit), u < t → (per S.size u t : Int) ≠ -T.lowest

end UnitScale

theorem TimeUnit.regular : TimeUnit.Regular := by
  refine ⟨?_, by decide +kernel, ?_⟩
  · unfold UnitScale.Accepted
    decide +kernel
  · intro T
    cases T <;> decide +kernel

theorem ByteUnit.regular : ByteUnit.Regular := by
  refine ⟨?_, by decide +kernel, ?_⟩
  · unfold UnitScale.Accepted
    decide +kernel
  · intro T
    cases T <;> decide +kernel

end Shclog
