import Shclog.Math
import Shclog.Types
import Mathlib.Order.Fin.Basic

/-! # `UnitRepr`

What `report.hpp` makes of an integer and its unit: the biggest unit that the value reaches, how
many whole ones of it there are, and the tenths. A scale is a table, and its units are the positions
in it. -/

namespace Shclog

open Lib

/-- `UnitReprError`. -/
inductive UnitReprError where
  | unexpected
  | bufferTooSmall
  | outOfRange
  deriving DecidableEq

/-- What a class has to offer as an `S` of `UnitRepr<S>`, but for the check of its scales: the units
up to `LAST`, with their scales and symbols. -/
structure UnitScale where
  last : Nat
  scale : Fin (last + 1) → IntType.usize.Val
  symbol : Fin (last + 1) → List U8

namespace UnitScale

variable (S : UnitScale) {T : IntType}

abbrev Unit := Fin (S.last + 1)

/-- `S::LAST`. -/
def LAST : S.Unit := Fin.last S.last

/-- The loop of `unit_scales_fit`, for the units up to `i`. -/
def scalesDivide : (i : Nat) → i ≤ S.last → Eval Bool
  | 0, _ => pure true
  | i + 1, hi => do
    let ok ← scalesDivide i (by omega)
    if ok then
      let r ← Eval.rem (S.scale ⟨i + 1, by omega⟩) (S.scale ⟨i, by omega⟩)
      pure (r.val = 0)
    else pure false

/-- `unit_scales_fit<S>()`. -/
def unitScalesFit : Eval Bool := do
  let ok ← S.scalesDivide S.last le_rfl
  if ok then
    let most ← Eval.div (⟨IntType.usize.max, IntType.inRange_max _⟩ : IntType.usize.Val)
      ⟨10, by decide⟩
    pure ((S.scale S.LAST).val ≤ most.val)
  else pure false

/-- `S` is a `UnitScale`: the check comes out true, at compile time. -/
def Accepted : Prop := S.unitScalesFit = pure true

/-- `ratio`. -/
def ratio (u t : S.Unit) : Eval IntType.usize.Val := do
  Checked.assert (u ≤ t) .assertion
  let q ← Eval.div (S.scale t) (S.scale u)
  Eval.convert .usize q.val

/-- `fills_unit`; the comparisons are those of `std::cmp_greater_equal` and `std::cmp_less_equal`.
-/
def fillsUnit (v : T.Val) (u t : S.Unit) : Eval Bool := do
  let r ← S.ratio u t
  if v.val ≥ r.val then pure true
  else
    let r ← Eval.intCast .isize r.val
    let r ← Eval.neg r
    pure (v.val ≤ r.val)

/-- The loop of `biggest_unit_fit`, with `n` units left above `idx`. -/
def biggestUnitFrom (value : T.Val) (u : S.Unit) : (n : Nat) → n ≤ S.last → Eval S.Unit
  | 0, _ => pure S.LAST
  | n + 1, hn => do
    let fills ← S.fillsUnit value u ⟨S.last - n, by omega⟩
    if fills then biggestUnitFrom value u n (by omega)
    else pure ⟨S.last - (n + 1), by omega⟩

/-- `biggest_unit_fit`. -/
def biggestUnitFit (value : T.Val) (u : S.Unit) : Eval S.Unit :=
  S.biggestUnitFrom value u (S.last - u) (Nat.sub_le ..)

structure ValueInUnit (T : IntType) where
  whole : T.Val
  tenth : IntType.u8.Val
  unit : S.Unit
  deriving DecidableEq

/-- `rem < 0 ? -rem : rem`, if `T` is signed. -/
def absRem (rem : T.promote.Val) : Eval T.promote.Val :=
  if T.isSigned ∧ rem.val < 0 then do
    let m ← Eval.neg rem
    Eval.convert T.promote m.val
  else pure rem

/-- `tenth`: zero unless there is another unit, and less than ten of it. -/
def tenthOf (value ratio_in_t whole : T.Val) (unit_ratio : IntType.usize.Val) :
    Eval IntType.u8.Val :=
  if unit_ratio.val ≠ 1 ∧ whole.val < 10 ∧ whole.val > -10 then do
    let rem ← Eval.rem value ratio_in_t
    let rem ← absRem rem
    let rem ← Eval.intCast .usize rem.val
    let ten ← Eval.arith .usize (rem.val * 10)
    let tenth ← Eval.div ten unit_ratio
    Eval.intCast .u8 tenth.val
  else pure 0

/-- `fit`. -/
def fit (value : T.Val) (u : S.Unit) : Eval (Except UnitReprError (S.ValueInUnit T)) := do
  let biggest_u ← S.biggestUnitFit value u
  let unit_ratio ← S.ratio u biggest_u
  let ratio_in_t ← Eval.intCast T unit_ratio.val
  let q ← Eval.div value ratio_in_t
  let whole ← Eval.intCast T q.val
  let tenth ← tenthOf value ratio_in_t whole unit_ratio
  pure (.ok ⟨whole, tenth, biggest_u⟩)

end UnitScale

end Shclog
