import Mathlib.Data.Nat.Basic
import Mathlib.Order.Bounds.Basic
import Mathlib.Order.Fin.Basic
import Mathlib.Tactic.Ring

/-! # Scales of units

A scale is a list of sizes each of which divides the next. A quantity given in one unit is shown in
the biggest unit that it reaches: so many whole units, and the tenths of one that are left over.
Both depend only on how the quantity compares to the units, so that it does not matter in which of
the smaller units it was given. -/

namespace Shclog.Lib

variable {last : Nat} {size : Fin (last + 1) → Nat} {u t w b : Fin (last + 1)} {m m' n r k : Nat}

/-- How many of the unit `u` make one of `t`. -/
def per (size : Fin (last + 1) → Nat) (u t : Fin (last + 1)) : Nat := size t / size u

/-- Each size divides the next, and only the last may be zero. -/
structure Scale (size : Fin (last + 1) → Nat) : Prop where
  pos : ∀ i, i ≠ Fin.last last → 0 < size i
  dvd : ∀ i j, i ≤ j → size i ∣ size j

namespace Scale

theorem of_next (hpos : ∀ i, i ≠ Fin.last last → 0 < size i)
    (hnext : ∀ i j : Fin (last + 1), j.val = i.val + 1 → size i ∣ size j) : Scale size := by
  refine ⟨hpos, ?_⟩
  suffices h : ∀ (i : Fin (last + 1)) (j : Nat) (hj : j < last + 1),
      i.val ≤ j → size i ∣ size ⟨j, hj⟩ by
    intro i j hij
    exact h i j.val j.isLt hij
  intro i j hj hij
  induction j, hij using Nat.le_induction with
  | base => exact dvd_rfl
  | succ j _ ih => exact (ih (by omega)).trans (hnext _ _ rfl)

/-- Below a unit that has a size, every unit has. -/
theorem pos_of_le (h : Scale size) (hut : u ≤ t) (ht : 0 < size t) : 0 < size u :=
  Nat.pos_of_dvd_of_pos (h.dvd u t hut) ht

theorem all_pos (h : Scale size) (hlast : 0 < size (Fin.last last)) (i : Fin (last + 1)) :
    0 < size i :=
  h.pos_of_le (Fin.le_last i) hlast

/-- So much of the smaller unit is as much as one of the bigger. -/
theorem per_mul_size (h : Scale size) (hut : u ≤ t) : per size u t * size u = size t :=
  Nat.div_mul_cancel (h.dvd u t hut)

theorem per_pos (h : Scale size) (hut : u ≤ t) (ht : 0 < size t) : 0 < per size u t :=
  Nat.div_pos (Nat.le_of_dvd ht (h.dvd u t hut)) (h.pos_of_le hut ht)

/-- **Ratios compose.** -/
theorem per_mul_per (h : Scale size) (hut : u ≤ t) (htw : t ≤ w) (ht : 0 < size t) :
    per size u t * per size t w = per size u w := by
  have hu := h.pos_of_le hut ht
  apply Nat.eq_of_mul_eq_mul_right hu
  rw [h.per_mul_size (hut.trans htw), Nat.mul_right_comm, h.per_mul_size hut, Nat.mul_comm,
    h.per_mul_size htw]

theorem per_mono (h : Scale size) (htw : t ≤ w) (hw : 0 < size w) : per size u t ≤ per size u w :=
  Nat.div_le_div_right (Nat.le_of_dvd hw (h.dvd t w htw))

end Scale

theorem per_self (hu : 0 < size u) : per size u u = 1 := Nat.div_self hu

/-- A ratio of zero comes of a size of zero, on either side. -/
theorem pos_of_per_pos (h : 0 < per size u t) : 0 < size u ∧ 0 < size t := by
  have hdiv := Nat.div_pos_iff.mp h
  exact ⟨hdiv.1, hdiv.1.trans_le hdiv.2⟩

/-- Every unit but the last has one above it. -/
theorem exists_next (h : b ≠ Fin.last last) : ∃ t : Fin (last + 1), t.val = b.val + 1 := by
  have hb := b.isLt
  have hne : b.val ≠ last := fun heq => h (Fin.ext heq)
  exact ⟨⟨b.val + 1, by omega⟩, rfl⟩

/-! ## The biggest unit -/

/-- The units from `u` on that the quantity `m` reaches; `u` itself in any case. -/
def Reached (size : Fin (last + 1) → Nat) (m : Nat) (u : Fin (last + 1)) : Set (Fin (last + 1)) :=
  {t | t = u ∨ (u < t ∧ per size u t ≤ m)}

/-- Going up from `u`, one stops at `b`: it has been reached, and the next unit is not. -/
structure Stops (size : Fin (last + 1) → Nat) (m : Nat) (u b : Fin (last + 1)) : Prop where
  le : u ≤ b
  reached : ∀ t, u < t → t ≤ b → per size u t ≤ m
  next : ∀ t, t.val = b.val + 1 → m < per size u t

theorem exists_stops (size : Fin (last + 1) → Nat) (m : Nat) (u : Fin (last + 1)) :
    ∃ b, Stops size m u b := by
  suffices h : ∀ i, u ≤ i → (∀ t, u < t → t ≤ i → per size u t ≤ m) → ∃ b, Stops size m u b by
    apply h u le_rfl
    intro t hlt hle
    exact absurd hle hlt.not_ge
  intro i
  -- one is at `i`, with everything up to it reached, and either stops there or goes on
  induction i using Fin.reverseInduction with
  | last =>
      intro hle hreached
      refine ⟨Fin.last last, hle, hreached, ?_⟩
      intro t ht
      have := t.isLt
      rw [Fin.val_last] at ht
      omega
  | cast i ih =>
      intro hle hreached
      by_cases hnext : per size u i.succ ≤ m
      · apply ih (hle.trans i.castSucc_lt_succ.le)
        intro t hlt hle'
        rcases hle'.lt_or_eq with hlt' | heq
        · exact hreached t hlt (Fin.le_castSucc_iff.mpr hlt')
        · rw [heq]
          exact hnext
      · refine ⟨i.castSucc, hle, hreached, ?_⟩
        intro t ht
        have heq : t = i.succ := Fin.ext ht
        rw [heq]
        exact not_le.mp hnext

namespace Stops

/-- Where every unit has a size, one stops at the biggest unit that is reached. -/
theorem isGreatest (h : Stops size m u b) (hs : Scale size) (hlast : 0 < size (Fin.last last)) :
    IsGreatest (Reached size m u) b := by
  refine ⟨?_, ?_⟩
  · rcases h.le.lt_or_eq with hlt | heq
    · exact Or.inr ⟨hlt, h.reached b hlt le_rfl⟩
    · exact Or.inl heq.symm
  · rintro t (heq | ⟨hut, ht⟩)
    · exact heq.le.trans h.le
    · -- a unit beyond the next takes no less than that
      by_contra hbt
      rw [not_le] at hbt
      have hnext := h.next ⟨b.val + 1, by omega⟩ rfl
      have hmono : per size u ⟨b.val + 1, by omega⟩ ≤ per size u t :=
        hs.per_mono (Fin.mk_le_of_le_val hbt) (hs.all_pos hlast t)
      omega

end Stops

namespace Scale

/-- The unit does not depend on the smaller unit that a quantity was given in. -/
theorem isGreatest_mul (hs : Scale size) (hlast : 0 < size (Fin.last last)) (hm : 0 < m)
    (hwu : w ≤ u) (h : IsGreatest (Reached size m u) b) :
    IsGreatest (Reached size (m * per size w u) w) b := by
  have hpos := hs.all_pos hlast
  have hub : u ≤ b := h.2 (Or.inl rfl)
  -- from `u` on, the same units are reached
  have hreach : ∀ t, u ≤ t → (per size w t ≤ m * per size w u ↔ per size u t ≤ m) := by
    intro t hut
    rw [← hs.per_mul_per hwu hut (hpos u), Nat.mul_comm]
    exact Nat.mul_le_mul_right_iff (hs.per_pos hwu (hpos u))
  have hself : per size u u ≤ m := by
    rw [per_self (hpos u)]
    exact hm
  refine ⟨?_, ?_⟩
  · rcases (hwu.trans hub).lt_or_eq with hlt | heq
    · refine Or.inr ⟨hlt, (hreach b hub).mpr ?_⟩
      rcases h.1 with heq | ⟨-, hb⟩
      · rw [heq]
        exact hself
      · exact hb
    · exact Or.inl heq.symm
  · rintro t (heq | ⟨-, ht⟩)
    · exact heq.le.trans (hwu.trans hub)
    · rcases le_or_gt t u with htu | hut
      -- what is below `u` is below `b` in any case
      · exact htu.trans hub
      · exact h.2 (Or.inr ⟨hut, (hreach t hut.le).mp ht⟩)

end Scale

/-- More reaches no smaller unit. -/
theorem reached_mono (hmn : m ≤ n) (h : IsGreatest (Reached size m u) b)
    (h' : IsGreatest (Reached size n u) w) : b ≤ w := by
  apply h'.2
  exact h.1.imp_right fun hb => ⟨hb.1, hb.2.trans hmn⟩

/-! ## Wholes and tenths -/

/-- The tenths of `r` that `m` has beyond its multiples, which are shown up to ten wholes. -/
def tenths (m r : Nat) : Nat := if m / r < 10 then 10 * (m % r) / r else 0

theorem tenths_le (hr : 0 < r) (m : Nat) : tenths m r ≤ 9 := by
  unfold tenths
  split
  · have hlt : 10 * (m % r) < 10 * r := Nat.mul_lt_mul_of_pos_left (Nat.mod_lt m hr) (by omega)
    exact Nat.le_of_lt_succ (Nat.div_lt_of_lt_mul (by rwa [Nat.mul_comm r]))
  · omega

theorem tenths_one (m : Nat) : tenths m 1 = 0 := by
  simp [tenths, Nat.mod_one]

/-- They are a matter of proportion. -/
theorem tenths_mul (m r : Nat) (hk : 0 < k) : tenths (m * k) (r * k) = tenths m r := by
  unfold tenths
  rw [Nat.mul_div_mul_right m r hk, Nat.mul_mod_mul_right, ← Nat.mul_assoc,
    Nat.mul_div_mul_right _ r hk]

/-- Of the same wholes, more leaves no fewer tenths. -/
theorem tenths_mono (hmn : m ≤ n) (hdiv : m / r = n / r) : tenths m r ≤ tenths n r := by
  unfold tenths
  rw [hdiv]
  split
  · apply Nat.div_le_div_right
    apply Nat.mul_le_mul_left
    have hm := Nat.div_add_mod m r
    have hn := Nat.div_add_mod n r
    rw [hdiv] at hm
    omega
  · exact le_rfl

/-- **Wholes and tenths are what there is, cut short** of a tenth, or of a whole where no tenths are
shown. -/
theorem tenths_bracket (hr : 0 < r) (m : Nat) : (10 * (m / r) + tenths m r) * r ≤ 10 * m ∧
    10 * m < (10 * (m / r) + tenths m r + if m / r < 10 then 1 else 10) * r := by
  have hm := Nat.div_add_mod m r
  have hrem := Nat.mod_lt m hr
  have hq : (10 * (m / r)) * r = 10 * (r * (m / r)) := by ring
  unfold tenths
  split
  · have hle := Nat.div_mul_le_self (10 * (m % r)) r
    have hlt := Nat.lt_div_mul_add hr (a := 10 * (m % r))
    rw [Nat.add_mul, Nat.add_mul, Nat.add_mul, hq]
    omega
  · rw [Nat.add_zero, Nat.add_mul, hq]
    omega

/-! ## What is shown -/

theorem natAbs_tdiv_natCast (x : Int) (n : Nat) : (x.tdiv n).natAbs = x.natAbs / n := by
  rw [Int.natAbs_tdiv, Int.natAbs_natCast]
  rfl

/-- The quantity `x`, given in the unit `u`, is shown as `n` of the unit `b` and `k` tenths. The
whole ones keep the sign. -/
structure Shown (size : Fin (last + 1) → Nat) (x : Int) (u b : Fin (last + 1)) (n t : Int) :
    Prop where
  unit : IsGreatest (Reached size x.natAbs u) b
  whole : n = x.tdiv (per size u b)
  tenth : t = tenths x.natAbs (per size u b)

namespace Shown

variable {x y n n' t t' : Int} {b' : Fin (last + 1)}

theorem unique (h : Shown size x u b n t) (h' : Shown size x u b' n' t') :
    b = b' ∧ n = n' ∧ t = t' := by
  obtain rfl := h.unit.unique h'.unit
  exact ⟨rfl, h.whole.trans h'.whole.symm, h.tenth.trans h'.tenth.symm⟩

theorem le (h : Shown size x u b n t) : u ≤ b := h.unit.2 (Or.inl rfl)

theorem natAbs_whole (h : Shown size x u b n t) : n.natAbs = x.natAbs / per size u b := by
  rw [h.whole, natAbs_tdiv_natCast]

/-- Nothing but zero is shown as no whole unit. -/
theorem whole_ne_zero (h : Shown size x u b n t) (hs : Scale size)
    (hlast : 0 < size (Fin.last last)) (hx : x ≠ 0) : n ≠ 0 := by
  have hpos := hs.all_pos hlast
  have hle : per size u b ≤ x.natAbs := by
    rcases h.unit.1 with heq | ⟨-, hle⟩
    · rw [heq, per_self (hpos u)]
      omega
    · exact hle
  have hdiv := Nat.div_pos hle (hs.per_pos h.le (hpos b))
  rw [← h.natAbs_whole] at hdiv
  omega

/-- **What is shown is no more than there is**, and with so much of the unit more it would be. -/
theorem bracket (h : Shown size x u b n t) (hs : Scale size) (hlast : 0 < size (Fin.last last)) :
    (10 * n.natAbs + t.natAbs) * size b ≤ 10 * (x.natAbs * size u) ∧
      10 * (x.natAbs * size u) <
        (10 * n.natAbs + t.natAbs + if n.natAbs < 10 then 1 else 10) * size b := by
  have hpos := hs.all_pos hlast
  have ht : t.natAbs = tenths x.natAbs (per size u b) := by
    rw [h.tenth]
    rfl
  obtain ⟨hlow, hhigh⟩ := tenths_bracket (hs.per_pos h.le (hpos b)) x.natAbs
  rw [ht, h.natAbs_whole, ← hs.per_mul_size h.le, ← Nat.mul_assoc, ← Nat.mul_assoc,
    ← Nat.mul_assoc]
  exact ⟨Nat.mul_le_mul_right _ hlow, Nat.mul_lt_mul_of_pos_right hhigh (hpos u)⟩

/-- Hence less than a tenth of it is left out. -/
theorem close (h : Shown size x u b n t) (hs : Scale size) (hlast : 0 < size (Fin.last last))
    (hx : x ≠ 0) : 9 * (x.natAbs * size u) < (10 * n.natAbs + t.natAbs) * size b := by
  obtain ⟨hlow, hhigh⟩ := h.bracket hs hlast
  have hn : 1 ≤ n.natAbs := Int.natAbs_pos.mpr (h.whole_ne_zero hs hlast hx)
  -- what may be missing is not more than a tenth of what is shown
  have hmissing : 10 * ((if n.natAbs < 10 then 1 else 10) * size b) ≤
      (10 * n.natAbs + t.natAbs) * size b := by
    rw [← Nat.mul_assoc]
    apply Nat.mul_le_mul_right
    split <;> omega
  rw [Nat.add_mul] at hhigh
  omega

/-- In the unit that it is given in, all of it is shown. -/
theorem whole_of_self (h : Shown size x u u n t) (hs : Scale size) (hlast : 0 < size (Fin.last last)) :
    n = x ∧ t = 0 := by
  have hone := per_self (hs.all_pos hlast u)
  refine ⟨?_, ?_⟩
  · rw [h.whole, hone, Nat.cast_one, Int.tdiv_one]
  · rw [h.tenth, hone, tenths_one]
    rfl

theorem sign_whole (h : Shown size x u b n t) (hs : Scale size)
    (hlast : 0 < size (Fin.last last)) : n.sign = x.sign := by
  by_cases hx : x = 0
  · rw [h.whole, hx, Int.zero_tdiv]
  · have hne := h.whole_ne_zero hs hlast hx
    have hper := Int.natCast_nonneg (per size u b)
    rcases Int.lt_or_gt_of_ne hx with hneg | hpos
    · have hle := Int.tdiv_nonneg (show 0 ≤ -x by omega) hper
      rw [Int.neg_tdiv, ← h.whole] at hle
      rw [Int.sign_eq_neg_one_of_neg hneg, Int.sign_eq_neg_one_of_neg (by omega)]
    · have hle := Int.tdiv_nonneg (show 0 ≤ x by omega) hper
      rw [← h.whole] at hle
      rw [Int.sign_eq_one_of_pos hpos, Int.sign_eq_one_of_pos (by omega)]

/-- **A quantity is shown the same, whichever smaller unit it is given in.** -/
theorem mul (h : Shown size x u b n t) (hs : Scale size) (hlast : 0 < size (Fin.last last))
    (hx : x ≠ 0) (hwu : w ≤ u) : Shown size (x * per size w u) w b n t := by
  have hpos := hs.all_pos hlast
  have hper : per size w b = per size u b * per size w u := by
    rw [Nat.mul_comm]
    exact (hs.per_mul_per hwu h.le (hpos u)).symm
  have hk := hs.per_pos hwu (hpos u)
  have habs : (x * per size w u).natAbs = x.natAbs * per size w u := by
    rw [Int.natAbs_mul, Int.natAbs_natCast]
  refine ⟨?_, ?_, ?_⟩
  · rw [habs]
    exact hs.isGreatest_mul hlast (Int.natAbs_pos.mpr hx) hwu h.unit
  · rw [hper, Nat.cast_mul, Int.mul_tdiv_mul_of_pos_left _ _ (Int.natCast_pos.mpr hk)]
    exact h.whole
  · rw [habs, hper, tenths_mul _ _ hk]
    exact h.tenth

theorem neg (h : Shown size x u b n t) : Shown size (-x) u b (-n) t := by
  refine ⟨?_, ?_, ?_⟩
  · rw [Int.natAbs_neg]
    exact h.unit
  · rw [Int.neg_tdiv, h.whole]
  · rw [Int.natAbs_neg]
    exact h.tenth

/-- **More is not shown as less**: in a bigger unit, or as more whole ones of it, or as many and no
fewer tenths. -/
theorem mono (hx : 0 ≤ x) (hxy : x ≤ y) (h : Shown size x u b n t) (h' : Shown size y u b' n' t') :
    b < b' ∨ b = b' ∧ (n < n' ∨ n = n' ∧ t ≤ t') := by
  have habs : x.natAbs ≤ y.natAbs := by omega
  rcases (reached_mono habs h.unit h'.unit).lt_or_eq with hlt | rfl
  · exact Or.inl hlt
  · -- in the same unit, both are divided by the same
    refine Or.inr ⟨rfl, ?_⟩
    have hn : n = (x.natAbs / per size u b : Nat) := by
      rw [h.whole, ← Int.natAbs_of_nonneg hx]
      rfl
    have hn' : n' = (y.natAbs / per size u b : Nat) := by
      rw [h'.whole, ← Int.natAbs_of_nonneg (hx.trans hxy)]
      rfl
    have hdiv : x.natAbs / per size u b ≤ y.natAbs / per size u b := Nat.div_le_div_right habs
    rcases hdiv.lt_or_eq with hlt | heq
    · left
      rw [hn, hn']
      exact_mod_cast hlt
    · refine Or.inr ⟨by rw [hn, hn', heq], ?_⟩
      rw [h.tenth, h'.tenth]
      exact_mod_cast tenths_mono habs heq

end Shown

end Shclog.Lib
