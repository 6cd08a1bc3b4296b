import Shclog.Lib.Window

/-! # Fixed-width integers

The names of `types.hpp`. A machine integer is a bit vector: arithmetic wraps, `<` and `≤` compare
unsigned values, and a signed reading is taken where the source casts to a signed type. -/

namespace Shclog

abbrev U8 := BitVec 8
abbrev U16 := BitVec 16
abbrev U32 := BitVec 32
abbrev U64 := BitVec 64
abbrev I32 := BitVec 32
abbrev I64 := BitVec 64
abbrev Usize := BitVec 64

/-- The bytes of a `std::string_view`. -/
def bytesOf (s : String) : List U8 := s.toUTF8.toList.map UInt8.toBitVec

theorem Usize.toNat_succ {x : Usize} (h : x.toNat + 1 < 2 ^ 64) : (x + 1).toNat = x.toNat + 1 := by
  rw [BitVec.toNat_add]
  exact Nat.mod_eq_of_lt h

theorem Usize.toNat_two_pow {k : Nat} (hk : k < 64) : (BitVec.ofNat 64 (2 ^ k)).toNat = 2 ^ k := by
  rw [BitVec.toNat_ofNat]
  exact Nat.mod_eq_of_lt (Nat.pow_lt_pow_right (by omega) hk)

/-- The powers of two from 2 up that a `Usize` can be. -/
theorem Usize.exists_of_isPowerOfTwo {N : Usize} (h₂ : 2 ≤ N.toNat) (h : N.toNat.isPowerOfTwo) :
    ∃ k, 1 ≤ k ∧ k < 64 ∧ N = BitVec.ofNat 64 (2 ^ k) := by
  obtain ⟨k, hk⟩ := h
  refine ⟨k, ?_, ?_, ?_⟩
  · apply Nat.one_le_iff_ne_zero.mpr
    intro h0
    rw [hk, h0] at h₂
    omega
  · have hlt := N.isLt
    rw [hk] at hlt
    exact (Nat.pow_lt_pow_iff_right (by omega)).mp hlt
  · rw [← hk, BitVec.ofNat_toNat, BitVec.setWidth_eq]

/-- `capacity < 2 || (capacity & (capacity - 1)) != 0` refuses all but the powers of two from 2 up. -/
theorem Usize.exists_two_pow {capacity : Usize} (h₂ : ¬ capacity < 2)
    (hand : capacity &&& (capacity - 1) = 0) :
    ∃ k, 1 ≤ k ∧ k < 64 ∧ capacity = BitVec.ofNat 64 (2 ^ k) := by
  rw [BitVec.lt_def] at h₂
  have hge : 2 ≤ capacity.toNat := Nat.le_of_not_lt h₂
  have hsub : (capacity - 1).toNat = capacity.toNat - 1 :=
    BitVec.toNat_sub_of_le (by rw [BitVec.le_def]; exact Nat.le_of_lt hge)
  have hnat : capacity.toNat &&& (capacity.toNat - 1) = 0 := by
    rw [← hsub, ← BitVec.toNat_and, hand]
    rfl
  exact Usize.exists_of_isPowerOfTwo hge
    ((Nat.and_sub_one_eq_zero_iff_isPowerOfTwo (by omega)).mp hnat)

/-- What `(capacity & (capacity - 1)) != 0` is about. -/
theorem Usize.two_pow_and_pred {k : Nat} (hk : k < 64) :
    BitVec.ofNat 64 (2 ^ k) &&& (BitVec.ofNat 64 (2 ^ k) - 1) = 0 := by
  rw [Lib.word_two_pow_pred]
  show Lib.slot 64 k (2 ^ k) = 0
  rw [Lib.slot_eq_ofNat_mod (Nat.le_of_lt hk), Nat.mod_self]
  rfl

/-- A power of two that is a `Usize`, and fewer threads than half the range, fit into it together. -/
theorem Usize.lap_fits {k n : Nat} (hk : k < 64) (hn : n < 2 ^ 63) : 2 ^ k + n < 2 ^ 64 := by
  have : 2 ^ k ≤ 2 ^ 63 := Nat.pow_le_pow_right (by omega) (by omega)
  omega

end Shclog
