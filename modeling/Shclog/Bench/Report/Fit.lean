import Shclog.Lib.Scale
import Shclog.Bench.Report.Basic

/-! # What `fit` computes

`fit_eq_pure_iff` says, for any table at all, when `fit` goes right and what it then returns.
Nothing is assumed of the scales: where they are degenerate, so is what it takes to go right. -/

namespace Shclog.UnitScale

open Lib IntType

variable {S : UnitScale} {T : IntType} {v : T.Val} {u t b : S.Unit} {q : IntType.usize.Val}

/-- A scale as a number. -/
def size (S : UnitScale) (i : S.Unit) : Nat := (S.scale i).val.toNat

theorem scale_val (S : UnitScale) (i : S.Unit) : (S.scale i).val = S.size i :=
  (Int.toNat_of_nonneg (S.scale i).property.1).symm

theorem ratio_eq_pure_iff :
    S.ratio u t = pure q ↔ u ≤ t ∧ S.size u ≠ 0 ∧ q.val = per S.size u t := by
  simp only [ratio, Checked.bind_eq_pure_iff, Checked.assert_eq_pure_iff, Eval.convert_eq_pure_iff,
    Eval.div_eq_pure_iff, scale_val, exists_and_left, exists_const]
  have hdiv : ((S.size t : Int)).tdiv (S.size u) = (per S.size u t : Nat) :=
    (Int.ofNat_tdiv _ _).symm
  rw [hdiv]
  constructor
  · rintro ⟨hut, x, ⟨hu, hx⟩, hq⟩
    exact ⟨hut, by exact_mod_cast hu, hq.trans hx⟩
  · rintro ⟨hut, hu, hq⟩
    exact ⟨hut, q, ⟨by exact_mod_cast hu, hq⟩, rfl⟩

theorem per_le_usize (S : UnitScale) (u t : S.Unit) :
    (per S.size u t : Int) ≤ IntType.usize.max := by
  have hle : per S.size u t ≤ S.size t := Nat.div_le_self _ _
  have hmax := (S.scale t).property.2
  rw [scale_val] at hmax
  omega

theorem exists_ratio (hut : u ≤ t) (hu : S.size u ≠ 0) :
    ∃ q, S.ratio u t = pure q ∧ q.val = per S.size u t :=
  ⟨⟨per S.size u t, inRange_of_le (Int.natCast_nonneg _) (S.per_le_usize u t)⟩,
    ratio_eq_pure_iff.mpr ⟨hut, hu, rfl⟩, rfl⟩

/-! ## The biggest unit -/

theorem fillsUnit_eq_pure_iff {c : Bool} :
    S.fillsUnit v u t = pure c ↔ u ≤ t ∧ S.size u ≠ 0 ∧
      ((per S.size u t ≤ v.val ∧ c = true) ∨
        (v.val < per S.size u t ∧ (per S.size u t : Int) ≤ IntType.isize.max ∧
          c = decide (v.val ≤ -per S.size u t))) := by
  rw [fillsUnit, Checked.bind_eq_pure_iff]
  constructor
  · rintro ⟨q, hq, hc⟩
    obtain ⟨hut, hu, hq⟩ := ratio_eq_pure_iff.mp hq
    refine ⟨hut, hu, ?_⟩
    rw [hq] at hc
    split at hc
    · next hge => exact Or.inl ⟨hge, (Checked.pure_inj.mp hc).symm⟩
    · -- only then is the ratio cast and negated
      next hlt =>
        simp only [Checked.bind_eq_pure_iff, Eval.intCast_eq_pure_iff, Eval.neg,
          Eval.arith_eq_pure_iff, Checked.pure_inj] at hc
        obtain ⟨i, hi, m, hm, rfl⟩ := hc
        refine Or.inr ⟨not_le.mp hlt, hi ▸ i.property.2, ?_⟩
        rw [hm, hi]
  · rintro ⟨hut, hu, hc⟩
    obtain ⟨q, hratio, hq⟩ := exists_ratio hut hu
    refine ⟨q, hratio, ?_⟩
    rw [hq]
    rcases hc with ⟨hge, rfl⟩ | ⟨hlt, hmax, rfl⟩
    · rw [if_pos hge]
    · have hr : IntType.isize.InRange (per S.size u t) :=
        inRange_of_le (Int.natCast_nonneg _) hmax
      have hneg : IntType.isize.promote.InRange (-per S.size u t) := by
        have hlow : IntType.isize.promote.lowest ≤ -IntType.isize.max := by decide
        have hhigh : 0 ≤ IntType.isize.promote.max := by decide
        constructor <;> omega
      rw [if_neg (not_le.mpr hlt), Eval.intCast_of_inRange hr, pure_bind, Eval.neg,
        Eval.arith_of_inRange hneg, pure_bind]

/-- A unit that is filled is reached. -/
theorem per_le_of_fills (h : S.fillsUnit v u t = pure true) : per S.size u t ≤ v.val.natAbs := by
  obtain ⟨-, -, ⟨hle, -⟩ | ⟨-, -, hle⟩⟩ := fillsUnit_eq_pure_iff.mp h
  · omega
  · have := of_decide_eq_true hle.symm
    omega

/-- One that is not filled is not reached, and its ratio has been negated. -/
theorem lt_per_of_not_fills (h : S.fillsUnit v u t = pure false) :
    v.val.natAbs < per S.size u t ∧ (per S.size u t : Int) ≤ IntType.isize.max := by
  obtain ⟨-, -, ⟨-, hc⟩ | ⟨hlt, hmax, hgt⟩⟩ := fillsUnit_eq_pure_iff.mp h
  · cases hc
  · have := of_decide_eq_false hgt.symm
    exact ⟨by omega, hmax⟩

theorem fills_of_per_le (hut : u ≤ t) (hu : S.size u ≠ 0) (hle : per S.size u t ≤ v.val.natAbs)
    (hneg : v.val < 0 → (per S.size u t : Int) ≤ IntType.isize.max) :
    S.fillsUnit v u t = pure true := by
  apply fillsUnit_eq_pure_iff.mpr
  refine ⟨hut, hu, ?_⟩
  rcases le_or_gt (per S.size u t : Int) v.val with hge | hlt
  · exact Or.inl ⟨hge, rfl⟩
  · refine Or.inr ⟨hlt, hneg (by omega), ?_⟩
    symm
    rw [decide_eq_true_eq]
    omega

theorem not_fills_of_lt_per (hut : u ≤ t) (hu : S.size u ≠ 0) (hlt : v.val.natAbs < per S.size u t)
    (hmax : (per S.size u t : Int) ≤ IntType.isize.max) : S.fillsUnit v u t = pure false := by
  apply fillsUnit_eq_pure_iff.mpr
  refine ⟨hut, hu, Or.inr ⟨by omega, hmax, ?_⟩⟩
  symm
  rw [decide_eq_false_iff_not]
  omega

/-- The loop ends at the first unit above which it finds one that is not filled. -/
theorem biggestUnitFrom_eq_pure_iff {n : Nat} (hn : n ≤ S.last) :
    S.biggestUnitFrom v u n hn = pure b ↔
      S.last - n ≤ b ∧ (∀ t, S.last - n < t.val → t ≤ b → S.fillsUnit v u t = pure true) ∧
        ∀ t : S.Unit, t.val = b.val + 1 → S.fillsUnit v u t = pure false := by
  induction n with
  | zero =>
      rw [biggestUnitFrom, Checked.pure_inj]
      constructor
      · rintro rfl
        refine ⟨le_rfl, ?_, ?_⟩
        · intro t hlt hle
          exact absurd hle (by rw [Fin.le_def]; exact not_le.mpr hlt)
        · intro t ht
          have := t.isLt
          rw [LAST, Fin.val_last] at ht
          omega
      · rintro ⟨hle, -, -⟩
        exact (Fin.last_le_iff.mp hle).symm
  | succ n ih =>
      -- the unit that is asked about is `S.last - n`, the first above where the loop is
      rw [biggestUnitFrom, Checked.bind_eq_pure_iff]
      constructor
      · rintro ⟨c, hfills, hrest⟩
        cases c with
        | true =>
            obtain ⟨hle, hall, hnext⟩ := (ih _).mp hrest
            refine ⟨by omega, ?_, hnext⟩
            intro t hlt htb
            rcases (show S.last - n ≤ t.val by omega).lt_or_eq with h | h
            · exact hall t h htb
            · rwa [show t = ⟨S.last - n, by omega⟩ from Fin.ext h.symm]
        | false =>
            obtain rfl := Checked.pure_inj.mp hrest
            refine ⟨le_rfl, ?_, ?_⟩
            · intro t hlt hle
              exact absurd hle (by rw [Fin.le_def]; exact not_le.mpr hlt)
            · intro t ht
              dsimp only at ht
              rwa [show t = ⟨S.last - n, by omega⟩ from Fin.ext (by dsimp only; omega)]
      · rintro ⟨hle, hall, hnext⟩
        rcases hle.lt_or_eq with hlt | heq
        · have hfirst : (⟨S.last - n, by omega⟩ : S.Unit) ≤ b := by
            rw [Fin.le_def]
            dsimp only
            omega
          refine ⟨true, hall _ (by dsimp only; omega) hfirst, (ih _).mpr ⟨hfirst, ?_, hnext⟩⟩
          intro t hlt' htb
          exact hall t (by omega) htb
        · refine ⟨false, hnext _ (by dsimp only; omega), ?_⟩
          rw [if_neg Bool.false_ne_true, Checked.pure_inj]
          exact Fin.ext heq

theorem biggestUnitFit_eq_pure_iff :
    S.biggestUnitFit v u = pure b ↔
      u ≤ b ∧ (∀ t, u < t → t ≤ b → S.fillsUnit v u t = pure true) ∧
        ∀ t : S.Unit, t.val = b.val + 1 → S.fillsUnit v u t = pure false := by
  have hu : S.last - (S.last - u) = u.val := by
    have := u.isLt
    omega
  rw [biggestUnitFit, biggestUnitFrom_eq_pure_iff, hu]
  rfl

/-- Going up, one stops where the loop does; it has negated the ratio of the unit beyond. -/
theorem stops_of_biggestUnitFit (h : S.biggestUnitFit v u = pure b) :
    Stops S.size v.val.natAbs u b ∧
      ∀ t : S.Unit, t.val = b.val + 1 → (per S.size u t : Int) ≤ IntType.isize.max := by
  obtain ⟨hle, hall, hnext⟩ := biggestUnitFit_eq_pure_iff.mp h
  refine ⟨⟨hle, ?_, ?_⟩, ?_⟩
  · intro t hlt htb
    exact per_le_of_fills (hall t hlt htb)
  · intro t ht
    exact (lt_per_of_not_fills (hnext t ht)).1
  · intro t ht
    exact (lt_per_of_not_fills (hnext t ht)).2

theorem biggestUnitFit_of_stops (hu : S.size u ≠ 0) (h : Stops S.size v.val.natAbs u b)
    (hnext : ∀ t : S.Unit, t.val = b.val + 1 → (per S.size u t : Int) ≤ IntType.isize.max)
    (hneg : v.val < 0 → ∀ t, u < t → t ≤ b → (per S.size u t : Int) ≤ IntType.isize.max) :
    S.biggestUnitFit v u = pure b := by
  apply biggestUnitFit_eq_pure_iff.mpr
  refine ⟨h.le, ?_, ?_⟩
  · intro t hlt htb
    exact fills_of_per_le hlt.le hu (h.reached t hlt htb) fun hv => hneg hv t hlt htb
  · intro t ht
    have hut : u ≤ t := by
      have := h.le
      rw [Fin.le_def] at this ⊢
      omega
    exact not_fills_of_lt_per hut hu (h.next t ht) (hnext t ht)

/-! ## The result -/

theorem rem_eq_pure_iff {a c : T.Val} {r : T.promote.Val} (hc : 0 < c.val) :
    Eval.rem a c = pure r ↔ r.val = a.val.tmod c.val := by
  have hq : T.promote.InRange (a.val.tdiv c.val) := (a.property.tdiv hc).promote
  have hdiv : Eval.div a c = pure ⟨_, hq⟩ := Eval.div_eq_pure_iff.mpr ⟨hc.ne', rfl⟩
  rw [Eval.rem, hdiv, pure_bind, Eval.arith_eq_pure_iff]

/-- The remainder without its sign: the type has room for it. -/
theorem exists_absRem {rem : T.promote.Val} {n : Nat} (hn : 0 < n) (hmax : (n : Int) ≤ T.max)
    (hrem : rem.val = v.val.tmod n) :
    ∃ r, absRem rem = pure r ∧ r.val = (v.val.natAbs % n : Nat) := by
  have habs : rem.val.natAbs = v.val.natAbs % n := by
    rw [hrem, Int.natAbs_tmod, Int.natAbs_natCast]
  have hlt : v.val.natAbs % n < n := Nat.mod_lt _ hn
  unfold absRem
  by_cases hsign : T.isSigned ∧ rem.val < 0
  · have hneg : T.InRange (-rem.val) := inRange_of_le (by omega) (by omega)
    rw [if_pos hsign, Eval.neg, Eval.arith_of_inRange hneg.promote.promote, pure_bind,
      Eval.convert_of_inRange hneg.promote]
    exact ⟨_, rfl, by dsimp only; omega⟩
  · rw [if_neg hsign]
    refine ⟨rem, rfl, ?_⟩
    have hnonneg : 0 ≤ rem.val := by
      by_contra hneg
      rw [not_le] at hneg
      apply hsign
      refine ⟨?_, hneg⟩
      -- an unsigned value leaves no negative remainder
      by_contra hunsigned
      have hv := v.property.1
      rw [lowest, if_neg hunsigned] at hv
      have := Int.tmod_nonneg (n : Int) hv
      omega
    omega

/-- The fraction branch, for a ratio `n`. -/
theorem tenth_eq_pure_iff {rem : T.promote.Val} {n : Nat} {tenth : IntType.u8.Val} (hn : 0 < n)
    (hmax : (n : Int) ≤ T.max) (hq : q.val = n) (hrem : rem.val = v.val.tmod n) :
    (do let r ← absRem rem
        let r ← Eval.intCast .usize r.val
        let ten ← Eval.arith .usize (r.val * 10)
        let d ← Eval.div ten q
        Eval.intCast .u8 d.val) = pure tenth ↔
      (10 * (v.val.natAbs % n) : Nat) ≤ IntType.usize.max ∧
        tenth.val = (10 * (v.val.natAbs % n) / n : Nat) := by
  obtain ⟨r, habs, hr⟩ := exists_absRem hn hmax hrem
  rw [habs, pure_bind]
  simp only [Checked.bind_eq_pure_iff, Eval.intCast_eq_pure_iff, Eval.arith_eq_pure_iff,
    Eval.div_eq_pure_iff, hq, hr]
  constructor
  · rintro ⟨x, hx, y, hy, z, ⟨-, hz⟩, htenth⟩
    refine ⟨?_, ?_⟩
    · have := y.property.2
      omega
    · rw [htenth, hz, hy, hx, Int.mul_comm]
      norm_cast
  · rintro ⟨hle, htenth⟩
    have hy : IntType.usize.InRange (10 * (v.val.natAbs % n) : Nat) :=
      inRange_of_le (Int.natCast_nonneg _) hle
    have hx : IntType.usize.InRange (v.val.natAbs % n : Nat) :=
      inRange_of_le (Int.natCast_nonneg _) (by have := hy.2; omega)
    have hz : IntType.usize.promote.InRange (10 * (v.val.natAbs % n) / n : Nat) := by
      have hself := Nat.div_le_self (10 * (v.val.natAbs % n)) n
      have hmax : (10 * (v.val.natAbs % n) / n : Nat) ≤ IntType.usize.max := by
        have := hy.2
        omega
      exact inRange_of_le (Int.natCast_nonneg _) hmax
    refine ⟨⟨_, hx⟩, rfl, ⟨_, hy⟩, ?_, ⟨_, hz⟩, ⟨by omega, ?_⟩, htenth⟩
    · push_cast
      exact Int.mul_comm _ _
    · norm_cast

theorem natAbs_le_usize (v : T.Val) : (v.val.natAbs : Int) ≤ IntType.usize.max := by
  have hends : -IntType.usize.max ≤ T.lowest ∧ T.max ≤ IntType.usize.max := by
    cases T <;> decide
  have := v.property.1
  have := v.property.2
  omega

/-- With no other unit, or ten of it and more, there is nothing to show, and room to compute it. -/
theorem no_tenths {n : Nat} (hn : 0 < n) (h : n = 1 ∨ 10 ≤ v.val.natAbs / n) :
    (10 * (v.val.natAbs % n) : Nat) ≤ IntType.usize.max ∧ tenths v.val.natAbs n = 0 := by
  rcases h with rfl | hten
  · rw [Nat.mod_one, tenths_one]
    exact ⟨by decide, rfl⟩
  · have hmul := (Nat.le_div_iff_mul_le hn).mp hten
    have hlt := Nat.mod_lt v.val.natAbs hn
    have hmax := natAbs_le_usize v
    refine ⟨by omega, ?_⟩
    rw [tenths, if_neg (Nat.not_lt.mpr hten)]

theorem tenthOf_eq_pure_iff {ratio_in_t whole : T.Val} {n : Nat} {tenth : IntType.u8.Val}
    (hn : 0 < n) (hr : ratio_in_t.val = n) (hq : q.val = n) (hw : whole.val = v.val.tdiv n) :
    tenthOf v ratio_in_t whole q = pure tenth ↔
      (10 * (v.val.natAbs % n) : Nat) ≤ IntType.usize.max ∧
        tenth.val = tenths v.val.natAbs n := by
  have hwhole : whole.val.natAbs = v.val.natAbs / n := by
    rw [hw, natAbs_tdiv_natCast]
  unfold tenthOf
  -- the code asks for `unit_ratio != 1`, too, but then there are no tenths anyway
  by_cases hcond : q.val ≠ 1 ∧ whole.val < 10 ∧ whole.val > -10
  · have hmax : (n : Int) ≤ T.max := hr ▸ ratio_in_t.property.2
    have hrem : T.promote.InRange (v.val.tmod n) := v.property.tmod.promote
    have hpure : Eval.rem v ratio_in_t = pure ⟨_, hrem⟩ :=
      (rem_eq_pure_iff (by omega)).mpr (by rw [hr])
    rw [if_pos hcond, hpure, pure_bind, tenth_eq_pure_iff hn hmax hq rfl, tenths,
      if_pos (by omega)]
  · rw [if_neg hcond, Checked.pure_inj]
    obtain ⟨hroom, hzero⟩ := no_tenths (v := v) hn (by omega)
    rw [hzero, and_iff_right hroom, eq_comm, Subtype.ext_iff]
    rfl

/-- **`fit`** goes right, and returns this, if the loop ends at a unit whose ratio is not zero and
fits `T`, and ten times the remainder fits. -/
theorem fit_eq_pure_iff {r : S.ValueInUnit T} :
    S.fit v u = pure (.ok r) ↔
      S.biggestUnitFit v u = pure r.unit ∧ 0 < per S.size u r.unit ∧
        (per S.size u r.unit : Int) ≤ T.max ∧
        (10 * (v.val.natAbs % per S.size u r.unit) : Nat) ≤ IntType.usize.max ∧
        r.whole.val = v.val.tdiv (per S.size u r.unit) ∧
        r.tenth.val = tenths v.val.natAbs (per S.size u r.unit) := by
  simp only [fit, Checked.bind_eq_pure_iff, Checked.pure_inj, Eval.intCast_eq_pure_iff,
    Eval.div_eq_pure_iff]
  constructor
  · rintro ⟨b, hb, q, hratio, rt, hrt, x, ⟨hne, hx⟩, w, hw, tenth, htenth, hr⟩
    obtain ⟨-, -, hq⟩ := ratio_eq_pure_iff.mp hratio
    cases hr
    have hpos : 0 < per S.size u b := by omega
    obtain ⟨hroom, ht⟩ := (tenthOf_eq_pure_iff hpos (hrt.trans hq) hq
      (by rw [hw, hx, hrt, hq])).mp htenth
    exact ⟨hb, hpos, by rw [← hq, ← hrt]; exact rt.property.2, hroom, by rw [hw, hx, hrt, hq], ht⟩
  · rintro ⟨hb, hpos, hmax, hroom, hw, ht⟩
    obtain ⟨hu, -⟩ := pos_of_per_pos hpos
    obtain ⟨hle, -⟩ := biggestUnitFit_eq_pure_iff.mp hb
    obtain ⟨q, hratio, hq⟩ := exists_ratio hle hu.ne'
    have hrt : T.InRange (per S.size u r.unit) := inRange_of_le (Int.natCast_nonneg _) hmax
    -- one intermediate value for each line of `fit`
    refine ⟨r.unit, hb, q, hratio, ⟨_, hrt⟩, hq.symm, ⟨v.val.tdiv (per S.size u r.unit), ?_⟩,
      ⟨?_, rfl⟩, r.whole, hw, r.tenth, ?_, rfl⟩
    · exact (v.property.tdiv (by omega)).promote
    · dsimp only
      omega
    · exact (tenthOf_eq_pure_iff hpos rfl hq hw).mpr ⟨hroom, ht⟩

/-- The result, if there is one. -/
theorem exists_fit (hb : S.biggestUnitFit v u = pure b) (hpos : 0 < per S.size u b)
    (hmax : (per S.size u b : Int) ≤ T.max)
    (hroom : (10 * (v.val.natAbs % per S.size u b) : Nat) ≤ IntType.usize.max) :
    ∃ r, S.fit v u = pure (.ok r) ∧ r.unit = b ∧ r.whole.val = v.val.tdiv (per S.size u b) ∧
      r.tenth.val = tenths v.val.natAbs (per S.size u b) := by
  have hwhole : T.InRange (v.val.tdiv (per S.size u b)) :=
    v.property.tdiv (Int.natCast_pos.mpr hpos)
  have htenth : IntType.u8.InRange (tenths v.val.natAbs (per S.size u b)) := by
    have hle := tenths_le hpos v.val.natAbs
    have hlt := IntType.u8.lt_max
    exact inRange_of_le (Int.natCast_nonneg _) (by omega)
  obtain ⟨whole, hw⟩ : ∃ w : T.Val, w.val = v.val.tdiv (per S.size u b) := ⟨⟨_, hwhole⟩, rfl⟩
  obtain ⟨tenth, ht⟩ : ∃ t : IntType.u8.Val, t.val = tenths v.val.natAbs (per S.size u b) :=
    ⟨⟨_, htenth⟩, rfl⟩
  exact ⟨⟨whole, tenth, b⟩, fit_eq_pure_iff.mpr ⟨hb, hpos, hmax, hroom, hw, ht⟩, rfl, hw, ht⟩

end Shclog.UnitScale
