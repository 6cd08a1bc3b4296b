import Mathlib.Algebra.Order.Ring.Int
import Mathlib.Data.Rat.Floor
import Mathlib.Tactic.Ring
import Shclog.Lib.Checked

/-! # Integer types, casts and arithmetic

The integers of `types.hpp` as the language has them, and the `int_cast` of `cast.hpp`. Where a
template leaves its type open, so does the model: `T : IntType` is the type and `T.Val` its values.
A machine that does arithmetic on them is `Eval`: what the language leaves undefined and what the
source asserts not to happen are faults, and a result that is reduced to fit an unsigned type, or by
an implicit conversion, is a loss. That is a debug build; a release build does the same for as long
as there is no fault. -/

namespace Shclog

open Lib

/-- `an_integer`. -/
inductive IntType where
  | u8
  | u16
  | u32
  | u64
  | i8
  | i16
  | i32
  | i64
  deriving DecidableEq

namespace IntType

abbrev usize : IntType := u64
abbrev isize : IntType := i64

def bits : IntType → Nat
  | u8 | i8 => 8
  | u16 | i16 => 16
  | u32 | i32 => 32
  | u64 | i64 => 64

def isSigned : IntType → Bool
  | u8 | u16 | u32 | u64 => false
  | i8 | i16 | i32 | i64 => true

/-- `std::numeric_limits<T>::lowest()`. -/
def lowest (T : IntType) : Int := if T.isSigned then -2 ^ (T.bits - 1) else 0

/-- `std::numeric_limits<T>::max()`. -/
def max (T : IntType) : Int := if T.isSigned then 2 ^ (T.bits - 1) - 1 else 2 ^ T.bits - 1

/-- `std::in_range<T>`. -/
def InRange (T : IntType) (x : Int) : Prop := T.lowest ≤ x ∧ x ≤ T.max

instance (T : IntType) (x : Int) : Decidable (T.InRange x) :=
  inferInstanceAs (Decidable (_ ∧ _))

/-- The values of the type. -/
abbrev Val (T : IntType) := {x : Int // T.InRange x}

theorem lowest_nonpos (T : IntType) : T.lowest ≤ 0 := by cases T <;> decide

theorem lt_max (T : IntType) : 126 < T.max := by cases T <;> decide

/-- The signed minimum has one more than the maximum. -/
theorem neg_lowest_le (T : IntType) : -T.lowest ≤ T.max + 1 := by cases T <;> decide

theorem max_eq (T : IntType) : T.max = T.lowest + 2 ^ T.bits - 1 := by cases T <;> decide

theorem inRange_of_le {T : IntType} {x : Int} (h₀ : 0 ≤ x) (h : x ≤ T.max) : T.InRange x :=
  ⟨T.lowest_nonpos.trans h₀, h⟩

theorem inRange_zero (T : IntType) : T.InRange 0 :=
  inRange_of_le le_rfl (by have := T.lt_max; omega)

theorem inRange_max (T : IntType) : T.InRange T.max :=
  inRange_of_le (by have := T.lt_max; omega) le_rfl

theorem inRange_lowest (T : IntType) : T.InRange T.lowest :=
  ⟨le_rfl, T.lowest_nonpos.trans (by have := T.lt_max; omega)⟩

instance (T : IntType) : Zero T.Val := ⟨⟨0, T.inRange_zero⟩⟩

instance (T : IntType) : One T.Val :=
  ⟨⟨1, inRange_of_le Int.one_nonneg (by have := T.lt_max; omega)⟩⟩

instance (T : IntType) : DecidableLE T.Val := fun a b => inferInstanceAs (Decidable (a.val ≤ b.val))

theorem Val.natAbs_le {T : IntType} (v : T.Val) : (v.val.natAbs : Int) ≤ T.max + 1 := by
  have := v.property.1
  have := v.property.2
  have := T.neg_lowest_le
  omega

/-- The value of the type that an integer is reduced to. -/
def wrap (T : IntType) (x : Int) : T.Val :=
  ⟨T.lowest + (x - T.lowest) % 2 ^ T.bits, by
    have hpos : (0 : Int) < 2 ^ T.bits := pow_pos (by decide) _
    have h₀ := Int.emod_nonneg (x - T.lowest) hpos.ne'
    have h₁ := Int.emod_lt_of_pos (x - T.lowest) hpos
    have := T.max_eq
    constructor <;> omega⟩

theorem wrap_of_inRange {T : IntType} {x : Int} (h : T.InRange x) : (T.wrap x).val = x := by
  have hlt : x - T.lowest < 2 ^ T.bits := by
    have := h.2
    rw [T.max_eq] at this
    omega
  show T.lowest + (x - T.lowest) % 2 ^ T.bits = x
  rw [Int.emod_eq_of_lt (Int.sub_nonneg.mpr h.1) hlt]
  omega

/-! ## Promotions -/

/-- The integer promotions: what is narrower than `int` becomes an `int`. -/
def promote (T : IntType) : IntType := if T.bits < 32 then i32 else T

/-- The usual arithmetic conversions, of types that are promoted first. -/
def common (A B : IntType) : IntType :=
  let A := A.promote
  let B := B.promote
  if A.isSigned = B.isSigned then if A.bits < B.bits then B else A
  -- the unsigned type wins unless the signed one can represent all of it
  else if A.isSigned then if B.bits < A.bits then A else B
  else if A.bits < B.bits then B else A

theorem InRange.promote {T : IntType} {x : Int} (h : T.InRange x) : T.promote.InRange x := by
  have hlow : T.promote.lowest ≤ T.lowest := by cases T <;> decide
  have hmax : T.max ≤ T.promote.max := by cases T <;> decide
  exact ⟨hlow.trans h.1, h.2.trans hmax⟩

/-- What lies between zero and a value is a value. -/
theorem InRange.towards_zero {T : IntType} {x y : Int} (h : T.InRange x) (hpos : 0 ≤ x → 0 ≤ y)
    (hneg : x ≤ 0 → y ≤ 0) (habs : y.natAbs ≤ x.natAbs) : T.InRange y := by
  have hlow := T.lowest_nonpos
  have hmax := T.lt_max
  obtain ⟨hx₁, hx₂⟩ := h
  constructor <;> omega

theorem InRange.tdiv {T : IntType} {x n : Int} (h : T.InRange x) (hn : 0 < n) :
    T.InRange (x.tdiv n) := by
  apply h.towards_zero
  · exact fun hx => Int.tdiv_nonneg hx hn.le
  · intro hx
    have := Int.tdiv_nonneg (Int.neg_nonneg.mpr hx) hn.le
    rw [Int.neg_tdiv] at this
    omega
  · exact Int.natAbs_tdiv_le_natAbs x n

theorem tmod_nonpos {x : Int} (n : Int) (hx : x ≤ 0) : x.tmod n ≤ 0 := by
  have := Int.tmod_nonneg n (Int.neg_nonneg.mpr hx)
  rw [Int.neg_tmod] at this
  omega

theorem InRange.tmod {T : IntType} {x n : Int} (h : T.InRange x) : T.InRange (x.tmod n) := by
  apply h.towards_zero
  · exact Int.tmod_nonneg n
  · exact tmod_nonpos n
  · rw [Int.natAbs_tmod]
    exact Nat.mod_le _ _

/-- `C` is wider than `T` and keeps its sign. -/
def Widens (T C : IntType) : Prop := C.bits > T.bits ∧ (C.isSigned ∨ ¬ T.isSigned)

instance (T C : IntType) : Decidable (Widens T C) := inferInstanceAs (Decidable (_ ∧ _))

theorem Widens.inRange {T C : IntType} {x : Int} (hC : Widens T C) (hx : T.InRange x) :
    C.InRange x := by
  have hends : C.lowest ≤ T.lowest ∧ T.max ≤ C.max := by
    revert hC
    cases T <;> cases C <;> decide
  exact ⟨hends.1.trans hx.1, hx.2.trans hends.2⟩

end IntType

/-- `f64`, exact where it is finite. -/
inductive F64 where
  | nan
  | negInf
  | posInf
  | finite (x : ℚ)

/-! ## Evaluation -/

/-- What ends an evaluation: an assertion of `int_cast`, of `Slice::operator[]` or another, or what
the language leaves undefined; a store outside of the object it is made through is that, too. -/
inductive Fault where
  | castOutOfRange
  | indexOutOfBounds
  | assertion
  | overflow
  | divideByZero
  | storeOutside
  deriving DecidableEq

abbrev Eval (α : Type) := Checked Fault α

namespace Eval

open IntType

variable {T A B : IntType}

/-- `int_cast<T>`. -/
def intCast (T : IntType) (x : Int) : Eval T.Val :=
  if h : T.InRange x then pure ⟨x, h⟩ else .fault .castOutOfRange

/-- An implicit conversion to `T`, which reduces what does not fit. -/
def convert (T : IntType) (x : Int) : Eval T.Val :=
  if h : T.InRange x then pure ⟨x, h⟩ else .lossy (T.wrap x)

/-- The result `x` of an operation carried out in the type `T`: a signed one must not overflow, an
unsigned one is reduced. -/
def arith (T : IntType) (x : Int) : Eval T.Val :=
  if h : T.InRange x then pure ⟨x, h⟩
  else if T.isSigned then .fault .overflow
  else .lossy (T.wrap x)

/-- `a / b`. -/
def div (a b : T.Val) : Eval T.promote.Val :=
  if b.val = 0 then .fault .divideByZero else arith T.promote (a.val.tdiv b.val)

/-- `a % b`, undefined also where `a / b` is not representable. -/
def rem (a b : T.Val) : Eval T.promote.Val := do
  let _ ← div a b
  arith T.promote (a.val.tmod b.val)

/-- `-a`. -/
def neg (a : T.Val) : Eval T.promote.Val := arith T.promote (-a.val)

/-- `int_cast<T>` of a floating point number that is `x`, which drops the fraction. The assertion
lets through what is less than one below an unsigned type. -/
def intCastFloat (T : IntType) (x : ℚ) : Eval T.Val := do
  let hi := 2 * (T.max / 2 + 1)
  Checked.assert ((if T.isSigned then (-hi : ℚ) ≤ x else -1 < x) ∧ x < hi) .castOutOfRange
  convert T (if 0 ≤ x then ⌊x⌋ else ⌈x⌉)

theorem intCast_of_inRange {x : Int} (h : T.InRange x) : intCast T x = pure ⟨x, h⟩ := dif_pos h

theorem arith_of_inRange {x : Int} (h : T.InRange x) : arith T x = pure ⟨x, h⟩ := dif_pos h

theorem convert_of_inRange {x : Int} (h : T.InRange x) : convert T x = pure ⟨x, h⟩ := dif_pos h

theorem intCastFloat_of_nonneg {x : ℚ} (h₀ : 0 ≤ x) (h : T.InRange ⌊x⌋) :
    intCastFloat T x = pure ⟨⌊x⌋, h⟩ := by
  have hodd : T.max + 1 = 2 * (T.max / 2 + 1) := by cases T <;> decide
  have hlt : x < (2 * (T.max / 2 + 1) : Int) := by
    rw [← Int.floor_lt, ← hodd, Int.lt_add_one_iff]
    exact h.2
  have hlow : if T.isSigned then (-(2 * (T.max / 2 + 1) : Int) : ℚ) ≤ x else -1 < x := by
    have hpos : (0 : ℚ) < (2 * (T.max / 2 + 1) : Int) := h₀.trans_lt hlt
    split <;> linarith
  rw [intCastFloat]
  push_cast at hlt hlow ⊢
  rw [Checked.assert_true _ ⟨hlow, hlt⟩, pure_bind, if_pos h₀, convert_of_inRange h]

@[simp] theorem intCast_eq_pure_iff {x : Int} {v : T.Val} : intCast T x = pure v ↔ v.val = x := by
  unfold intCast
  split
  · rw [Checked.pure_inj, eq_comm, Subtype.ext_iff]
  · next h => exact iff_of_false (Checked.fault_ne_pure _ _) fun he => h (he ▸ v.property)

@[simp] theorem convert_eq_pure_iff {x : Int} {v : T.Val} : convert T x = pure v ↔ v.val = x := by
  unfold convert
  split
  · rw [Checked.pure_inj, eq_comm, Subtype.ext_iff]
  · next h => exact iff_of_false (Checked.lossy_ne_pure _ _) fun he => h (he ▸ v.property)

@[simp] theorem arith_eq_pure_iff {x : Int} {v : T.Val} : arith T x = pure v ↔ v.val = x := by
  unfold arith
  split
  · rw [Checked.pure_inj, eq_comm, Subtype.ext_iff]
  · next h =>
      have hne : v.val ≠ x := fun he => h (he ▸ v.property)
      split
      · exact iff_of_false (Checked.fault_ne_pure _ _) hne
      · exact iff_of_false (Checked.lossy_ne_pure _ _) hne

theorem div_eq_pure_iff {a b : T.Val} {v : T.promote.Val} :
    div a b = pure v ↔ b.val ≠ 0 ∧ v.val = a.val.tdiv b.val := by
  unfold div
  split
  · next h => exact iff_of_false (Checked.fault_ne_pure _ _) fun hne => hne.1 h
  · next h => rw [arith_eq_pure_iff, and_iff_right h]

end Eval

end Shclog
