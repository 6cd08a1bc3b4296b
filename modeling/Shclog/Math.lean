import Mathlib.Algebra.Order.Ring.Abs
import Mathlib.Data.Nat.Prime.Basic
import Shclog.Cast

/-! # Checked sums, and powers

The integer branches of `math.hpp`. `ipow` squares its base once for every bit of the exponent; that
it multiplies nothing that does not fit before it has to is the subject of the second half. -/

namespace Shclog

open Lib

variable {T : IntType}

/-- A value, and whether it is only what was left of one that does not fit. -/
structure Overflow (α : Type) where
  value : α
  overflow : Bool
  deriving DecidableEq

/-- `add_with_overflow`. -/
def addWithOverflow (a b : T.Val) : Overflow T.Val :=
  ⟨T.wrap (a.val + b.val), !decide (T.InRange (a.val + b.val))⟩

theorem addWithOverflow_of_inRange {a b : T.Val} (h : T.InRange (a.val + b.val)) :
    addWithOverflow a b = ⟨⟨a.val + b.val, h⟩, false⟩ := by
  have hwrap : T.wrap (a.val + b.val) = ⟨a.val + b.val, h⟩ :=
    Subtype.ext (IntType.wrap_of_inRange h)
  simp [addWithOverflow, hwrap, h]

/-- `mul_with_overflow`. -/
def mulWithOverflow (a b : T.Val) : Overflow T.Val :=
  ⟨T.wrap (a.val * b.val), !decide (T.InRange (a.val * b.val))⟩

theorem mulWithOverflow_of_inRange {a b : T.Val} (h : T.InRange (a.val * b.val)) :
    mulWithOverflow a b = ⟨⟨a.val * b.val, h⟩, false⟩ := by
  have hwrap : T.wrap (a.val * b.val) = ⟨a.val * b.val, h⟩ :=
    Subtype.ext (IntType.wrap_of_inRange h)
  simp [mulWithOverflow, hwrap, h]

/-- `a *= b`. -/
def mulAssign (a b : T.Val) : Eval T.Val := do
  let p ← Eval.arith T.promote (a.val * b.val)
  Eval.convert T p.val

/-- The loop of `ipow`. -/
def ipowLoop (base result : T.Val) (exp : Nat) : Eval T.Val :=
  if exp = 0 then pure result
  else do
    let result ← (if exp % 2 = 1 then mulAssign result base else pure result)
    let base ← (if exp / 2 ≠ 0 then mulAssign base base else pure base)
    ipowLoop base result (exp / 2)
termination_by exp
decreasing_by omega

/-- `ipow`, for an exponent that is not negative. -/
def ipow (base : T.Val) (exp : Nat) : Eval T.Val := ipowLoop base 1 exp

theorem mulAssign_of_inRange {a b : T.Val} (h : T.InRange (a.val * b.val)) :
    mulAssign a b = pure ⟨a.val * b.val, h⟩ := by
  rw [mulAssign, Eval.arith_of_inRange h.promote, pure_bind, Eval.convert_of_inRange h]

/-! ## What `ipow` stores -/

/-- What `result` and `base` hold after each round of the loop, if nothing is reduced. -/
def ipowRounds (base result : Int) (exp : Nat) : List (Int × Int) :=
  if exp = 0 then []
  else
    let result' := if exp % 2 = 1 then result * base else result
    let base' := if exp / 2 ≠ 0 then base * base else base
    (result', base') :: ipowRounds base' result' (exp / 2)
termination_by exp
decreasing_by omega

/-- A round moves a factor of the power from one accumulator to the other. -/
theorem ipow_round (base result : Int) (exp : Nat) :
    (if exp % 2 = 1 then result * base else result) *
      (if exp / 2 ≠ 0 then base * base else base) ^ (exp / 2) = result * base ^ exp := by
  have hpow : (if exp / 2 ≠ 0 then base * base else base) ^ (exp / 2) =
      base ^ (2 * (exp / 2)) := by
    split
    · rw [pow_mul, pow_two]
    · next h => rw [not_not.mp h]
  rw [hpow]
  split
  · next hodd =>
      have hexp : 2 * (exp / 2) + 1 = exp := by omega
      rw [mul_assoc, ← pow_succ', hexp]
  · next heven =>
      have hexp : 2 * (exp / 2) = exp := by omega
      rw [hexp]

theorem mulAssign_eq_pure_iff {a b v : T.Val} :
    mulAssign a b = pure v ↔ v.val = a.val * b.val := by
  constructor
  · intro h
    obtain ⟨p, hp, hv⟩ := Checked.bind_eq_pure_iff.mp h
    rw [Eval.arith_eq_pure_iff] at hp
    rw [Eval.convert_eq_pure_iff] at hv
    rw [hv, hp]
  · intro hv
    have hin : T.InRange (a.val * b.val) := hv ▸ v.property
    rw [mulAssign_of_inRange hin, Checked.pure_inj, Subtype.ext_iff]
    exact hv.symm

theorem ite_mulAssign_eq_pure_iff {p : Prop} [Decidable p] {a b c v : T.Val} :
    (if p then mulAssign a b else pure c) = pure v ↔
      v.val = if p then a.val * b.val else c.val := by
  split
  · exact mulAssign_eq_pure_iff
  · rw [Checked.pure_inj, eq_comm, Subtype.ext_iff]

/-- **`ipow` is exact if all that it stores fits**, and only then. -/
theorem ipowLoop_eq_pure_iff {base result v : T.Val} {exp : Nat} :
    ipowLoop base result exp = pure v ↔ v.val = result.val * base.val ^ exp ∧
      ∀ p ∈ ipowRounds base.val result.val exp, T.InRange p.1 ∧ T.InRange p.2 := by
  induction exp using Nat.strong_induction_on generalizing base result with
  | h exp ih =>
      rw [ipowLoop, ipowRounds]
      by_cases hexp : exp = 0
      · rw [if_pos hexp, if_pos hexp, Checked.pure_inj, hexp, pow_zero, mul_one, eq_comm,
          Subtype.ext_iff]
        simp
      · have hlt : exp / 2 < exp := by omega
        rw [if_neg hexp, if_neg hexp, Checked.bind_eq_pure_iff, List.forall_mem_cons,
          ← ipow_round base.val]
        constructor
        · rintro ⟨r, hr, hrest⟩
          obtain ⟨b, hb, hloop⟩ := Checked.bind_eq_pure_iff.mp hrest
          rw [ite_mulAssign_eq_pure_iff] at hr hb
          obtain ⟨hv, hrounds⟩ := (ih _ hlt).mp hloop
          rw [hr, hb] at hv hrounds
          exact ⟨hv, ⟨hr ▸ r.property, hb ▸ b.property⟩, hrounds⟩
        · rintro ⟨hv, ⟨hr, hb⟩, hrounds⟩
          refine ⟨⟨_, hr⟩, ite_mulAssign_eq_pure_iff.mpr rfl, ?_⟩
          refine Checked.bind_eq_pure_iff.mpr ⟨⟨_, hb⟩, ite_mulAssign_eq_pure_iff.mpr rfl, ?_⟩
          exact (ih _ hlt).mpr ⟨hv, hrounds⟩

/-! ## That it fits -/

theorem mul_self_ne_two_pow (x : Int) (k : Nat) : x * x ≠ 2 ^ (2 * k + 1) := by
  intro h
  have hn : x.natAbs * x.natAbs = 2 ^ (2 * k + 1) := by
    rw [← Int.natAbs_mul, h, Int.natAbs_pow]
    rfl
  obtain ⟨i, -, hi⟩ := (Nat.dvd_prime_pow Nat.prime_two).mp (Dvd.intro _ hn)
  rw [hi, ← pow_add] at hn
  have := Nat.pow_right_injective (le_refl 2) hn
  omega

theorem IntType.max_succ_of_lowest_neg (h : T.lowest < 0) :
    T.max + 1 = 2 ^ (2 * (T.bits / 2 - 1) + 1) := by
  revert h
  cases T <;> decide

/-- A square that is no larger than a value is one too: the signed minimum, which alone has no
counterpart, is not the negative of a square. -/
theorem IntType.InRange.mul_self {x y : Int} (hy : T.InRange y) (hle : x * x ≤ |y|) :
    T.InRange (x * x) := by
  apply IntType.inRange_of_le (mul_self_nonneg x)
  rcases le_or_gt 0 y with hpos | hneg
  · exact (abs_of_nonneg hpos ▸ hle).trans hy.2
  · have hmin := IntType.max_succ_of_lowest_neg (hy.1.trans_lt hneg)
    have hne := mul_self_ne_two_pow x (T.bits / 2 - 1)
    have habs := T.neg_lowest_le
    rw [abs_of_neg hneg] at hle
    have := hy.1
    omega

/-- What is left of a product without a positive factor is a value. -/
theorem IntType.InRange.of_mul {x y : Int} (h : T.InRange (x * y)) (hy : 0 < y) : T.InRange x := by
  apply h.towards_zero
  · exact fun hxy => nonneg_of_mul_nonneg_left hxy hy
  · exact fun hxy => nonpos_of_mul_nonpos_left hxy hy
  · rw [Int.natAbs_mul]
    exact Nat.le_mul_of_pos_right _ (Int.natAbs_pos.mpr hy.ne')

theorem le_abs_mul_pow {x y : Int} {e : Nat} (hx : x ≠ 0) (hy : 0 ≤ y) (he : e ≠ 0) :
    y ≤ |x * y ^ e| := by
  have hone : 1 ≤ |x| := Int.one_le_abs hx
  have hpow : y ≤ y ^ e := by
    rcases hy.eq_or_lt with rfl | hpos
    · exact pow_nonneg le_rfl e
    · exact le_self_pow₀ hpos he
  rw [abs_mul, abs_of_nonneg (pow_nonneg hy e)]
  exact hpow.trans (le_mul_of_one_le_left (pow_nonneg hy e) hone)

/-- **Nothing is stored too early.** As long as the product of both accumulators, as they are meant
to be combined, fits, so do they. -/
theorem ipowRounds_inRange {base result : Int} {exp : Nat} (hbase : T.InRange base)
    (hresult : T.InRange result) (hzero : result = 0 → base = 0)
    (h : T.InRange (result * base ^ exp)) :
    ∀ p ∈ ipowRounds base result exp, T.InRange p.1 ∧ T.InRange p.2 := by
  induction exp using Nat.strong_induction_on generalizing base result with
  | h exp ih =>
      rw [ipowRounds]
      by_cases hexp : exp = 0
      · rw [if_pos hexp]
        exact List.forall_mem_nil _
      · rw [if_neg hexp, List.forall_mem_cons]
        rw [← ipow_round] at h
        have hzero' : (if exp % 2 = 1 then result * base else result) = 0 → base = 0 := by
          split
          · intro hmul
            exact (mul_eq_zero.mp hmul).elim hzero id
          · exact hzero
        generalize hr : (if exp % 2 = 1 then result * base else result) = r at h hzero' ⊢
        by_cases hhalf : exp / 2 = 0
        · -- the last round, which leaves `base` alone
          rw [if_neg (not_not.mpr hhalf)] at h ⊢
          rw [hhalf, pow_zero, mul_one] at h
          refine ⟨⟨h, hbase⟩, ?_⟩
          rw [hhalf, ipowRounds, if_pos rfl]
          exact List.forall_mem_nil _
        · rw [if_pos hhalf] at h ⊢
          have hrange : T.InRange r ∧ T.InRange (base * base) := by
            by_cases h0 : base = 0
            · rw [h0, mul_zero] at hr
              rw [h0, mul_zero, ← hr]
              split
              · exact ⟨T.inRange_zero, T.inRange_zero⟩
              · exact ⟨hresult, T.inRange_zero⟩
            · have hsquare : 0 < base * base := mul_self_pos.mpr h0
              exact ⟨h.of_mul (pow_pos hsquare _),
                h.mul_self (le_abs_mul_pow (mt hzero' h0) hsquare.le hhalf)⟩
          refine ⟨hrange, ih _ (by omega) hrange.2 hrange.1 ?_ h⟩
          intro hr0
          rw [hzero' hr0, mul_zero]

/-- `ipow` returns the power whenever it fits, and then all that it stores on the way does, too. -/
theorem ipow_exact {base : T.Val} {exp : Nat} (h : T.InRange (base.val ^ exp)) :
    ipow base exp = pure ⟨base.val ^ exp, h⟩ ∧
      ∀ p ∈ ipowRounds base.val 1 exp, T.InRange p.1 ∧ T.InRange p.2 := by
  have hone : T.InRange 1 := (1 : T.Val).property
  have hrounds := ipowRounds_inRange base.property hone (fun h => absurd h Int.one_ne_zero)
    (by rwa [one_mul])
  refine ⟨?_, hrounds⟩
  rw [ipow, ipowLoop_eq_pure_iff]
  exact ⟨(one_mul _).symm, hrounds⟩

/-- The minimum of `i8`, from a negative base. -/
theorem ipow_exact_minimum :
    ipow (⟨-2, by decide⟩ : IntType.i8.Val) 7 = pure ⟨(-2) ^ 7, by decide⟩ ∧
      ∀ p ∈ ipowRounds (-2) 1 7, IntType.i8.InRange p.1 ∧ IntType.i8.InRange p.2 :=
  ipow_exact (by decide)

end Shclog
