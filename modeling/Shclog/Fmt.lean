import Shclog.Collections.Slice
import Shclog.Lib.Numeral
import Shclog.Types

/-! # Numbers as text

`write_number` of `fmt.hpp`, for integers. What the library leaves unspecified, the cells of a
buffer in which a number did not fit, is a parameter: `left`. -/

namespace Shclog

namespace Fmt

open Lib

variable {T : IntType} {ε : Type}

inductive WriteError where
  | bufferTooSmall
  deriving DecidableEq

/-- `std::errc`, as far as `std::to_chars` sets it. -/
inductive Errc where
  | none
  | valueTooLarge
  deriving DecidableEq

/-- `std::to_chars`, into the first `len` cells: what they are afterwards, where the number ends,
and whether it fits. -/
def toChars (left data : Nat → U8) (len : Nat) (v : Int) (base : Nat) : (Nat → U8) × Nat × Errc :=
  let s := intNumeral base v
  if s.length ≤ len then (fun i => (s[i]?).getD (data i), s.length, .none)
  else (fun i => if i < len then left i else data i, len, .valueTooLarge)

/-- `write_number`; `base` is 10 unless it is given. -/
def writeNumber (left : Nat → U8) (buf : Slice U8) (v : T.Val) (base : Nat) :
    Eval (Except WriteError IntType.usize.Val × Slice U8) :=
  let (data, last, ec) := toChars left buf.data buf.len v.val base
  let buf := { buf with data := data }
  if ec = .valueTooLarge then pure (.error .bufferTooSmall, buf)
  else do
    Checked.assert (ec = .none) .assertion
    let d ← Eval.arith .isize last
    let n ← Eval.intCast .usize d.val
    pure (.ok n, buf)

/-- `f` stores `s` from the start of the buffer on, and returns how long it is, or `e` if the buffer
is shorter. What is beyond the buffer it leaves alone. -/
def WritesText (e : ε) (f : Slice U8 → Eval (Except ε IntType.usize.Val × Slice U8)) (s : List U8) :
    Prop :=
  ∀ buf, ∃ res buf', f buf = pure (res, buf') ∧
    buf'.len = buf.len ∧ (∀ i, buf.len ≤ i → buf'.data i = buf.data i) ∧
    (s.length ≤ buf.len →
      (∃ n, res = .ok n ∧ n.val = s.length) ∧ buf'.toList s.length = s) ∧
    (buf.len < s.length → res = .error e)

/-- **`write_number`** writes the numeral. -/
theorem writesText_writeNumber (left : Nat → U8) (v : T.Val) (base : Nat)
    (hlen : ((intNumeral base v.val).length : Int) ≤ IntType.isize.max) :
    WritesText .bufferTooSmall (fun buf => writeNumber left buf v base)
      (intNumeral base v.val) := by
  intro buf
  unfold writeNumber toChars
  by_cases hfits : (intNumeral base v.val).length ≤ buf.len
  · have hd : IntType.isize.InRange (intNumeral base v.val).length :=
      IntType.inRange_of_le (Int.natCast_nonneg _) hlen
    have hn : IntType.usize.InRange (intNumeral base v.val).length :=
      IntType.inRange_of_le (Int.natCast_nonneg _) (hlen.trans (by decide))
    simp only [if_pos hfits, reduceCtorEq, if_false, Checked.assert_true, Eval.arith_of_inRange hd,
      Eval.intCast_of_inRange hn, pure_bind]
    refine ⟨_, _, rfl, rfl, ?_, ?_, ?_⟩
    · intro i hi
      dsimp only
      rw [List.getElem?_eq_none (hfits.trans hi)]
      rfl
    · intro _
      exact ⟨⟨_, rfl, rfl⟩, buf.toList_storeList _⟩
    · intro hlt
      exact absurd hfits (not_le.mpr hlt)
  · simp only [if_neg hfits, if_true]
    refine ⟨_, _, rfl, rfl, ?_, ?_, fun _ => rfl⟩
    · intro i hi
      exact if_neg (not_lt.mpr hi)
    · intro hle
      exact absurd hle hfits

end Fmt

end Shclog
