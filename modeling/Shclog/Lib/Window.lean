import Mathlib.Data.Nat.ModEq
import Mathlib.Tactic.Ring

/-! # Free-running counters and the cells they name

A ring buffer of `2 ^ k` cells is addressed by counters that are never reset: a machine word of
`w` bits counts up and wraps, and the low `k` bits name a cell. Here the counters are written
`BitVec.ofNat w n` with `n` the true, unbounded count. Two facts carry every argument about such
a buffer: counts less than `2 ^ w` apart can be told apart and subtracted in the word, and counts
less than `2 ^ k` apart name different cells. -/

namespace Shclog.Lib

variable {w k : Nat} {h t i j n : Nat}

/-! ## Words and the counts they stand for -/

theorem word_succ (n : Nat) : BitVec.ofNat w n + 1 = BitVec.ofNat w (n + 1) := by
  rw [BitVec.ofNat_add]
  rfl

theorem word_pred (n : Nat) : BitVec.ofNat w (n + 1) - 1 = BitVec.ofNat w n := by
  rw [← word_succ]
  exact BitVec.add_sub_cancel _ _

/-- A mask is one less than the number of cells. -/
theorem word_two_pow_pred (w k : Nat) :
    BitVec.ofNat w (2 ^ k) - 1 = BitVec.ofNat w (2 ^ k - 1) := by
  obtain ⟨n, hn⟩ := Nat.exists_eq_add_of_lt (Nat.two_pow_pos k)
  rw [Nat.zero_add] at hn
  rw [hn, word_pred, Nat.add_sub_cancel]

theorem word_eq_iff : BitVec.ofNat w i = BitVec.ofNat w j ↔ i % 2 ^ w = j % 2 ^ w := by
  rw [← BitVec.toNat_inj, BitVec.toNat_ofNat, BitVec.toNat_ofNat]

/-- Counts less than the word's range apart are told apart by the word. -/
theorem word_inj (hij : i ≤ j) (hlt : j - i < 2 ^ w)
    (he : BitVec.ofNat w i = BitVec.ofNat w j) : i = j := by
  have hmod : (j - i) % 2 ^ w = 0 := Nat.sub_mod_eq_zero_of_mod_eq (word_eq_iff.mp he).symm
  rw [Nat.mod_eq_of_lt hlt] at hmod
  omega

/-! ## Cells -/

/-- The cell a counter names: its low `k` bits, taken with the mask `2 ^ k - 1`. -/
def slot (w k n : Nat) : BitVec w := BitVec.ofNat w n &&& BitVec.ofNat w (2 ^ k - 1)

theorem two_pow_sub_one_mod (hk : k ≤ w) : (2 ^ k - 1) % 2 ^ w = 2 ^ k - 1 := by
  have := Nat.pow_le_pow_right (show 0 < 2 by omega) hk
  have := Nat.two_pow_pos k
  exact Nat.mod_eq_of_lt (by omega)

theorem slot_toNat (hk : k ≤ w) (n : Nat) : (slot w k n).toNat = n % 2 ^ k := by
  have hdvd : 2 ^ k ∣ 2 ^ w := Nat.pow_dvd_pow 2 hk
  rw [slot, BitVec.toNat_and, BitVec.toNat_ofNat, BitVec.toNat_ofNat, two_pow_sub_one_mod hk,
    Nat.and_two_pow_sub_one_eq_mod, Nat.mod_mod_of_dvd _ hdvd]

/-- Up to its lowest zero bit, the one numbered `j`, any mask is that of a power of two. -/
theorem and_pred_eq_mod {m : Nat} (hm : Odd m) (hi : i < 2 ^ (j + 1)) :
    i &&& (2 ^ j * m - 1) = i % 2 ^ j := by
  obtain ⟨q, rfl⟩ := hm
  have hpos := Nat.two_pow_pos j
  have hlow : (2 ^ j * (2 * q + 1) - 1) % 2 ^ (j + 1) = 2 ^ j - 1 := by
    have hsplit : 2 ^ j * (2 * q + 1) - 1 = 2 ^ (j + 1) * q + (2 ^ j - 1) := by
      rw [Nat.pow_succ, Nat.mul_add, ← Nat.mul_assoc, Nat.mul_one]
      omega
    rw [hsplit, Nat.mul_add_mod, Nat.mod_eq_of_lt (by rw [Nat.pow_succ]; omega)]
  calc i &&& (2 ^ j * (2 * q + 1) - 1)
      = (i &&& (2 ^ (j + 1) - 1)) &&& (2 ^ j * (2 * q + 1) - 1) := by
        rw [Nat.and_two_pow_sub_one_eq_mod, Nat.mod_eq_of_lt hi]
    _ = i &&& (2 ^ j * (2 * q + 1) - 1) % 2 ^ (j + 1) := by
        rw [Nat.and_assoc, Nat.and_comm (2 ^ (j + 1) - 1), Nat.and_two_pow_sub_one_eq_mod]
    _ = i % 2 ^ j := by rw [hlow, Nat.and_two_pow_sub_one_eq_mod]

theorem slot_eq_iff (hk : k ≤ w) : slot w k i = slot w k j ↔ i % 2 ^ k = j % 2 ^ k := by
  rw [← BitVec.toNat_inj, slot_toNat hk, slot_toNat hk]

/-- Counts less than a lap apart name different cells. -/
theorem slot_inj (hk : k ≤ w) (hij : i ≤ j) (hlt : j - i < 2 ^ k)
    (he : slot w k i = slot w k j) : i = j := by
  have hmod : (j - i) % 2 ^ k = 0 := Nat.sub_mod_eq_zero_of_mod_eq ((slot_eq_iff hk).mp he).symm
  rw [Nat.mod_eq_of_lt hlt] at hmod
  omega

/-- Two positions of one lap, in either order. -/
theorem slot_inj_window {b : Nat} (hk : k ≤ w) (hi : b ≤ i) (hi' : i < b + 2 ^ k)
    (hj : b ≤ j) (hj' : j < b + 2 ^ k) (he : slot w k i = slot w k j) : i = j := by
  rcases Nat.le_total i j with hij | hij
  · exact slot_inj hk hij (by omega) he
  · exact (slot_inj hk hij (by omega) he.symm).symm

/-- The cell does not change from lap to lap. -/
theorem slot_add_lap (hk : k ≤ w) (n : Nat) : slot w k (n + 2 ^ k) = slot w k n := by
  rw [slot_eq_iff hk, Nat.add_mod_right]

/-- A counter kept masked instead of free-running names the same cells. -/
theorem slot_eq_ofNat_mod (hk : k ≤ w) (n : Nat) : slot w k n = BitVec.ofNat w (n % 2 ^ k) := by
  have hlt : n % 2 ^ k < 2 ^ w :=
    Nat.lt_of_lt_of_le (Nat.mod_lt _ (Nat.two_pow_pos k)) (Nat.pow_le_pow_right (by omega) hk)
  rw [← BitVec.toNat_inj, slot_toNat hk, BitVec.toNat_ofNat, Nat.mod_eq_of_lt hlt]

/-- Advancing a masked counter: add one and mask again. -/
theorem slot_succ_mask (hk : k ≤ w) (n : Nat) :
    (slot w k n + 1) &&& BitVec.ofNat w (2 ^ k - 1) = slot w k (n + 1) := by
  rw [slot_eq_ofNat_mod hk n, word_succ]
  show slot w k (n % 2 ^ k + 1) = slot w k (n + 1)
  rw [slot_eq_iff hk, Nat.mod_add_mod]

/-- Every cell of the current lap is named by exactly one position of it: the one below `b + 2 ^ k`
that agrees with a given position modulo a lap. -/
theorem exists_window_rep (hk : k ≤ w) {b : Nat} (hb : b ≤ i) :
    ∃ m, b ≤ m ∧ m < b + 2 ^ k ∧ m ≤ i ∧ slot w k m = slot w k i := by
  refine ⟨b + (i - b) % 2 ^ k, by omega, ?_, ?_, ?_⟩
  · have := Nat.mod_lt (i - b) (Nat.two_pow_pos k)
    omega
  · have := Nat.mod_le (i - b) (2 ^ k)
    omega
  · rw [slot_eq_iff hk, Nat.add_mod_mod, Nat.add_sub_cancel' hb]

/-- Consecutive counts never name the same cell when there are at least two cells. -/
theorem word_succ_ne_of_slot_eq (hk : k ≤ w) (hk1 : 1 ≤ k) {m : Nat}
    (hs : slot w k m = slot w k i) : BitVec.ofNat w (m + 1) ≠ BitVec.ofNat w i := by
  intro he
  have hdvd : 2 ^ k ∣ 2 ^ w := Nat.pow_dvd_pow 2 hk
  have hmod : (m + 1) % 2 ^ k = i % 2 ^ k := by
    have := congrArg (· % 2 ^ k) (word_eq_iff.mp he)
    simpa [Nat.mod_mod_of_dvd _ hdvd] using this
  rw [← (slot_eq_iff hk).mp hs] at hmod
  have hone : 1 ≡ 0 [MOD 2 ^ k] := Nat.ModEq.add_left_cancel' m hmod
  have hlt : 1 < 2 ^ k := Nat.one_lt_two_pow (by omega)
  rw [Nat.ModEq, Nat.mod_eq_of_lt hlt, Nat.zero_mod] at hone
  omega

end Shclog.Lib
