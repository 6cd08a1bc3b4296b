import Mathlib.Data.Nat.Digits.Lemmas

/-! # Numerals

A number as text: its digits in a base of up to 36, the most significant first, and a sign if it is
negative. Numerals of different numbers differ, and consist of nothing but digits and the sign. -/

namespace Shclog.Lib

variable {b m n k : Nat} {x y : Int} {c : BitVec 8}

/-- `0` to `9`, then `a` to `z`. -/
def digitChar (d : Nat) : BitVec 8 :=
  if d < 10 then BitVec.ofNat 8 (48 + d) else BitVec.ofNat 8 (87 + d)

/-- Zero has a digit, too. -/
def numeral (b n : Nat) : List (BitVec 8) :=
  if n = 0 then [digitChar 0] else ((Nat.digits b n).map digitChar).reverse

def minusSign : BitVec 8 := 0x2d

def intNumeral (b : Nat) (x : Int) : List (BitVec 8) :=
  if x < 0 then minusSign :: numeral b x.natAbs else numeral b x.natAbs

/-! ## Digits -/

theorem toNat_digitChar (hk : k < 36) :
    (digitChar k).toNat = if k < 10 then 48 + k else 87 + k := by
  unfold digitChar
  split <;> simp only [BitVec.toNat_ofNat] <;> omega

theorem digitChar_inj (hm : m < 36) (hn : n < 36) (h : digitChar m = digitChar n) : m = n := by
  have heq := congrArg BitVec.toNat h
  rw [toNat_digitChar hm, toNat_digitChar hn] at heq
  split at heq <;> split at heq <;> omega

theorem exists_of_mem_numeral (hb : 1 < b) (h : c ∈ numeral b n) : ∃ d < b, c = digitChar d := by
  unfold numeral at h
  split at h
  · exact ⟨0, by omega, List.mem_singleton.mp h⟩
  · rw [List.mem_reverse, List.mem_map] at h
    obtain ⟨d, hd, rfl⟩ := h
    exact ⟨d, Nat.digits_lt_base hb hd, rfl⟩

/-- No character of a numeral comes before `0`. -/
theorem le_toNat_of_mem_numeral (hb : 1 < b) (hb' : b ≤ 36) (h : c ∈ numeral b n) :
    48 ≤ c.toNat := by
  obtain ⟨d, hd, rfl⟩ := exists_of_mem_numeral hb h
  rw [toNat_digitChar (hd.trans_le hb')]
  split <;> omega

theorem notMem_intNumeral (hb : 1 < b) (hb' : b ≤ 36) (hc : c.toNat < 48) (hne : c ≠ minusSign) :
    c ∉ intNumeral b x := by
  have hnum : c ∉ numeral b x.natAbs := by
    intro h
    exact absurd (le_toNat_of_mem_numeral hb hb' h) (not_le.mpr hc)
  unfold intNumeral
  split
  · simp [hne, hnum]
  · exact hnum

/-! ## Length -/

theorem length_numeral_of_lt (h : n < b) : (numeral b n).length = 1 := by
  unfold numeral
  split
  · rfl
  · next hn => simp [Nat.digits_of_lt b n hn h]

theorem length_numeral_le (hb : 1 < b) (hk : 0 < k) (h : n < b ^ k) : (numeral b n).length ≤ k := by
  unfold numeral
  split
  · exact hk
  · rw [List.length_reverse, List.length_map]
    exact (Nat.digits_length_le_iff hb n).mpr h

theorem length_intNumeral_le (b : Nat) (x : Int) :
    (intNumeral b x).length ≤ (numeral b x.natAbs).length + 1 := by
  unfold intNumeral
  split
  · rfl
  · exact Nat.le_succ _

/-! ## Reading back -/

/-- The digit that a character stands for. -/
def charDigit (c : BitVec 8) : Nat := if c.toNat < 58 then c.toNat - 48 else c.toNat - 87

theorem charDigit_digitChar (hk : k < 36) : charDigit (digitChar k) = k := by
  rw [charDigit, toNat_digitChar hk]
  by_cases hten : k < 10
  · rw [if_pos hten]
    split <;> omega
  · rw [if_neg hten]
    split <;> omega

/-- **A numeral says what its number is.** -/
theorem ofDigits_numeral (hb : 1 < b) (hb' : b ≤ 36) (n : Nat) :
    Nat.ofDigits b ((numeral b n).map charDigit).reverse = n := by
  unfold numeral
  split
  · next hn =>
      subst hn
      simp [charDigit_digitChar]
  · have hmap : (Nat.digits b n).map (charDigit ∘ digitChar) = Nat.digits b n := by
      conv_rhs => rw [← List.map_id (Nat.digits b n)]
      apply List.map_congr_left
      intro d hd
      exact charDigit_digitChar ((Nat.digits_lt_base hb hd).trans_le hb')
    rw [List.map_reverse, List.reverse_reverse, List.map_map, hmap, Nat.ofDigits_digits]

/-- `0` to `9`. -/
def isDecimalDigit (c : BitVec 8) : Bool := 48 ≤ c.toNat && c.toNat ≤ 57

/-- The number that a row of decimal digits stands for. -/
def decimal (s : List (BitVec 8)) : Nat := Nat.ofDigits 10 (s.map charDigit).reverse

@[simp] theorem decimal_numeral (n : Nat) : decimal (numeral 10 n) = n :=
  ofDigits_numeral (by decide) (by decide) n

/-- The number that a row of decimal digits stands for, with a sign before it or without. -/
def signedDecimal : List (BitVec 8) → Int
  | [] => 0
  | c :: s => if c = minusSign then -(decimal s : Int) else decimal (c :: s)

/-- A numeral without a sign does not start with one. -/
theorem numeral_ne_minusSign_cons (hb : 1 < b) (hb' : b ≤ 36) (n : Nat) (s : List (BitVec 8)) :
    numeral b n ≠ minusSign :: s := by
  intro heq
  have hle := le_toNat_of_mem_numeral hb hb' (heq ▸ List.mem_cons_self)
  exact absurd hle (by decide)

/-- **A signed numeral says what its number is.** -/
theorem signedDecimal_intNumeral (x : Int) : signedDecimal (intNumeral 10 x) = x := by
  unfold intNumeral
  split
  · next hneg =>
      rw [signedDecimal, if_pos rfl, decimal_numeral]
      omega
  · next hpos =>
      cases hs : numeral 10 x.natAbs with
      | nil =>
          have hvalue := decimal_numeral x.natAbs
          rw [hs] at hvalue
          have hzero : 0 = x.natAbs := hvalue
          show 0 = x
          omega
      | cons c s =>
          have hne : c ≠ minusSign := by
            rintro rfl
            exact numeral_ne_minusSign_cons (by decide) (by decide) _ _ hs
          rw [signedDecimal, if_neg hne, ← hs, decimal_numeral]
          omega

theorem numeral_inj (hb : 1 < b) (hb' : b ≤ 36) (h : numeral b m = numeral b n) : m = n := by
  rw [← ofDigits_numeral hb hb' m, h, ofDigits_numeral hb hb']

theorem intNumeral_inj (hb : 1 < b) (hb' : b ≤ 36) (h : intNumeral b x = intNumeral b y) :
    x = y := by
  have hsign := numeral_ne_minusSign_cons hb hb'
  unfold intNumeral at h
  split at h <;> split at h
  · next hx hy =>
      have := numeral_inj hb hb' (List.cons.inj h).2
      omega
  · exact absurd h.symm (hsign _ _)
  · exact absurd h (hsign _ _)
  · next hx hy =>
      have := numeral_inj hb hb' h
      omega

end Shclog.Lib
