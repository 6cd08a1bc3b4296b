import Shclog.Bench.Report.Fit

/-! # Tables that `unit_scales_fit` lets through

The check of a table looks at each scale and the one before, and at the last. That leaves out two
kinds of tables: those whose last scale is zero, and those with a ratio that is a power of two of
which a signed type has only the negation. -/

namespace Shclog.UnitScale

open Lib IntType

variable {S : UnitScale} {T : IntType} {v : T.Val} {u t b : S.Unit}

/-! ## The check -/

theorem rem_usize_eq_pure_iff {a c : IntType.usize.Val} {r : IntType.usize.promote.Val} :
    Eval.rem a c = pure r ↔ c.val ≠ 0 ∧ r.val = a.val.tmod c.val := by
  constructor
  · intro h
    obtain ⟨x, hx, -⟩ := Checked.bind_eq_pure_iff.mp h
    have hc := (Eval.div_eq_pure_iff.mp hx).1
    have hpos : 0 < c.val := lt_of_le_of_ne c.property.1 (Ne.symm hc)
    exact ⟨hc, (rem_eq_pure_iff hpos).mp h⟩
  · rintro ⟨hc, hr⟩
    exact (rem_eq_pure_iff (lt_of_le_of_ne c.property.1 (Ne.symm hc))).mpr hr

theorem scalesDivide_eq_true_iff {i : Nat} (hi : i ≤ S.last) :
    S.scalesDivide i hi = pure true ↔
      ∀ a b : S.Unit, b.val = a.val + 1 → b.val ≤ i → 0 < S.size a ∧ S.size a ∣ S.size b := by
  induction i with
  | zero =>
      rw [scalesDivide]
      refine ⟨?_, fun _ => rfl⟩
      intro _ a b hab hb
      omega
  | succ i ih =>
      have hstep : (∃ r, Eval.rem (S.scale ⟨i + 1, by omega⟩) (S.scale ⟨i, by omega⟩) = pure r ∧
          (pure (decide (r.val = 0)) : Eval Bool) = pure true) ↔
          0 < S.size ⟨i, by omega⟩ ∧ S.size ⟨i, by omega⟩ ∣ S.size ⟨i + 1, by omega⟩ := by
        simp only [rem_usize_eq_pure_iff, Checked.pure_inj, decide_eq_true_eq, scale_val]
        rw [← Int.natCast_dvd_natCast, Int.dvd_iff_tmod_eq_zero]
        constructor
        · rintro ⟨r, ⟨hne, hr⟩, hzero⟩
          exact ⟨by omega, by rw [← hr, hzero]⟩
        · rintro ⟨hpos, hzero⟩
          exact ⟨0, ⟨by omega, by rw [hzero]; rfl⟩, rfl⟩
      rw [scalesDivide, Checked.bind_eq_pure_iff]
      constructor
      · rintro ⟨c, hc, hrest⟩
        cases c with
        | false => cases Checked.pure_inj.mp hrest
        | true =>
            rw [if_pos rfl, Checked.bind_eq_pure_iff] at hrest
            intro a b hab hb
            rcases hb.lt_or_eq with hlt | heq
            · exact (ih _).mp hc a b hab (by omega)
            · have hlast := hstep.mp hrest
              rwa [← show a = ⟨i, by omega⟩ from Fin.ext (by dsimp only; omega),
                ← show b = ⟨i + 1, by omega⟩ from Fin.ext heq] at hlast
      · intro h
        refine ⟨true, (ih _).mpr fun a b hab hb => h a b hab (by omega), ?_⟩
        rw [if_pos rfl, Checked.bind_eq_pure_iff]
        exact hstep.mpr (h _ _ rfl le_rfl)

/-- What the check amounts to. -/
theorem accepted_iff :
    S.Accepted ↔
      (∀ a b : S.Unit, b.val = a.val + 1 → 0 < S.size a ∧ S.size a ∣ S.size b) ∧
        10 * S.size S.LAST ≤ IntType.usize.max := by
  have hmost : Eval.div (⟨IntType.usize.max, inRange_max _⟩ : IntType.usize.Val) ⟨10, by decide⟩ =
      pure ⟨1844674407370955161, by decide⟩ := rfl
  have hbound : (S.scale S.LAST).val ≤ 1844674407370955161 ↔
      10 * S.size S.LAST ≤ IntType.usize.max := by
    rw [scale_val]
    show _ ↔ 10 * (S.size S.LAST : Int) ≤ 2 ^ 64 - 1
    omega
  rw [Accepted, unitScalesFit, Checked.bind_eq_pure_iff]
  constructor
  · rintro ⟨c, hc, hrest⟩
    cases c with
    | false => cases Checked.pure_inj.mp hrest
    | true =>
        rw [if_pos rfl, hmost, pure_bind, Checked.pure_inj, decide_eq_true_eq] at hrest
        refine ⟨?_, hbound.mp hrest⟩
        intro a b hab
        exact (scalesDivide_eq_true_iff _).mp hc a b hab (Nat.le_of_lt_succ b.isLt)
  · rintro ⟨hall, hlast⟩
    refine ⟨true, (scalesDivide_eq_true_iff _).mpr fun a b hab _ => hall a b hab, ?_⟩
    rw [if_pos rfl, hmost, pure_bind, Checked.pure_inj, decide_eq_true_eq]
    exact hbound.mpr hlast

theorem Accepted.scale (h : S.Accepted) : Scale S.size := by
  obtain ⟨hall, -⟩ := accepted_iff.mp h
  apply Scale.of_next
  · intro i hi
    obtain ⟨j, hij⟩ := exists_next hi
    exact (hall i j hij).1
  · intro a b hab
    exact (hall a b hab).2

/-! ## What goes right -/

/-- `fit` goes right, and takes the value apart into whole units and a remainder. -/
def Sound (S : UnitScale) (v : T.Val) (u : S.Unit) : Prop :=
  ∃ r q rem, S.fit v u = pure (.ok r) ∧ S.ratio u r.unit = pure q ∧
    v.val = r.whole.val * q.val + rem ∧ |rem| < q.val ∧ (rem = 0 ∨ rem.sign = v.val.sign)

theorem sound_of_fit {r : S.ValueInUnit T} (h : S.fit v u = pure (.ok r)) : S.Sound v u := by
  obtain ⟨hb, hpos, -, -, hw, -⟩ := fit_eq_pure_iff.mp h
  obtain ⟨hu, -⟩ := pos_of_per_pos hpos
  obtain ⟨q, hratio, hq⟩ := exists_ratio (biggestUnitFit_eq_pure_iff.mp hb).1 hu.ne'
  refine ⟨r, q, v.val.tmod q.val, h, hratio, ?_, ?_, ?_⟩
  · rw [hw, hq, Int.mul_comm]
    exact (Int.mul_tdiv_add_tmod _ _).symm
  · rw [hq, Int.abs_eq_natAbs, Int.natAbs_tmod, Int.natAbs_natCast]
    exact_mod_cast Nat.mod_lt _ hpos
  · rcases eq_or_ne (v.val.tmod q.val) 0 with hzero | hne
    · exact Or.inl hzero
    · right
      rcases lt_or_ge v.val 0 with hlt | hge
      · have := tmod_nonpos q.val hlt.le
        rw [Int.sign_eq_neg_one_of_neg hlt, Int.sign_eq_neg_one_of_neg (by omega)]
      · have := Int.tmod_nonneg q.val hge
        have hv : v.val ≠ 0 := fun hv => hne (by rw [hv, Int.zero_tmod])
        rw [Int.sign_eq_one_of_pos (by omega), Int.sign_eq_one_of_pos (by omega)]

/-- The value is the signed minimum, and some later unit makes up just its negation. -/
def NegatedRatio (S : UnitScale) (v : T.Val) (u : S.Unit) : Prop :=
  v.val = T.lowest ∧ v.val < 0 ∧ ∃ t, u < t ∧ (per S.size u t : Int) = -v.val

/-- Some unit is reached beyond which there is another that is not, and nothing gets too big. -/
def StopsShort (S : UnitScale) (v : T.Val) (u : S.Unit) : Prop :=
  ∃ b t : S.Unit, Stops S.size v.val.natAbs u b ∧ t.val = b.val + 1 ∧
    (per S.size u t : Int) ≤ IntType.isize.max ∧
    (10 * (v.val.natAbs % per S.size u b) : Nat) ≤ IntType.usize.max

/-- A ratio that is reached fits the type, but for that one. -/
theorem per_le_max (hu : 0 < S.size u) (h : Stops S.size v.val.natAbs u b)
    (hneg : ¬ S.NegatedRatio v u) : (per S.size u b : Int) ≤ T.max := by
  rcases h.le.lt_or_eq with hlt | heq
  · have hle := h.reached b hlt le_rfl
    have hv := v.property
    have hlow := T.neg_lowest_le
    -- a reached ratio above the maximum is the negation of the minimum
    by_contra hmax
    apply hneg
    refine ⟨?_, ?_, b, hlt, ?_⟩
    · have := hv.1
      have := hv.2
      omega
    · have := hv.2
      omega
    · have := hv.1
      have := hv.2
      omega
  · have := T.lt_max
    rw [← heq, per_self hu]
    omega

theorem fit_of_stops (hS : Scale S.size) (hb : 0 < S.size b) (h : Stops S.size v.val.natAbs u b)
    (hneg : ¬ S.NegatedRatio v u)
    (hnext : ∀ t : S.Unit, t.val = b.val + 1 → (per S.size u t : Int) ≤ IntType.isize.max)
    (hmax : (per S.size u b : Int) ≤ IntType.isize.max)
    (hroom : (10 * (v.val.natAbs % per S.size u b) : Nat) ≤ IntType.usize.max) :
    ∃ r, S.fit v u = pure (.ok r) := by
  have hu := hS.pos_of_le h.le hb
  have hfit : S.biggestUnitFit v u = pure b := by
    apply biggestUnitFit_of_stops hu.ne' h hnext
    intro _ t _ htb
    have := hS.per_mono (u := u) htb hb
    omega
  obtain ⟨r, hr, -⟩ := exists_fit hfit (hS.per_pos h.le hb) (per_le_max hu h hneg) hroom
  exact ⟨r, hr⟩

/-- With a last scale that is not zero, no ratio is too big for anything but the type. -/
theorem Accepted.exists_fit (hS : S.Accepted) (hlast : 0 < S.size S.LAST)
    (hneg : ¬ S.NegatedRatio v u) : ∃ r, S.fit v u = pure (.ok r) := by
  have hscale := hS.scale
  have hper : ∀ t : S.Unit, 10 * (per S.size u t : Int) ≤ IntType.usize.max := by
    intro t
    have hdiv : per S.size u t ≤ S.size t := Nat.div_le_self _ _
    have hle := Nat.le_of_dvd hlast (hscale.dvd t S.LAST (Fin.le_last t))
    have hmost := (accepted_iff.mp hS).2
    omega
  -- so it is below half of `usize`, and has a negation in `isize`
  have hisize : ∀ t : S.Unit, (per S.size u t : Int) ≤ IntType.isize.max := by
    intro t
    have := hper t
    have : IntType.usize.max = 2 * IntType.isize.max + 1 := by decide
    have := IntType.isize.lt_max
    omega
  have hpos := hscale.all_pos hlast
  obtain ⟨b, hstops⟩ := exists_stops S.size v.val.natAbs u
  apply fit_of_stops hscale (hpos b) hstops hneg (fun t _ => hisize t) (hisize b)
  have := Nat.mod_lt v.val.natAbs (hscale.per_pos hstops.le (hpos b))
  have := hper b
  omega

/-! ## What goes wrong -/

/-- The cast of that ratio is out of range: the loop goes up to it, or past it. -/
theorem Sound.not_negatedRatio (h : S.Sound v u) (hS : Scale S.size) : ¬ S.NegatedRatio v u := by
  obtain ⟨r, -, -, hfit, -⟩ := h
  obtain ⟨hb, hpos, hmax, -⟩ := fit_eq_pure_iff.mp hfit
  intro hneg
  obtain ⟨hlow, hlt, t, -, ht⟩ := hneg
  obtain ⟨-, hsize⟩ := pos_of_per_pos hpos
  have hper : 0 < per S.size u t := by omega
  obtain ⟨-, ht₀⟩ := pos_of_per_pos hper
  rcases le_or_gt t r.unit with hle | hgt
  · have hmono := hS.per_mono (u := u) hle hsize
    have hends : T.lowest < 0 → T.max < -T.lowest := by cases T <;> decide
    have := hends (by omega)
    omega
  · -- the loop has not ended below a unit that is reached
    obtain ⟨next, hnext⟩ := exists_next (ne_of_lt (hgt.trans_le (Fin.le_last t)))
    have hbefore := (stops_of_biggestUnitFit hb).1.next next hnext
    have hnt : next ≤ t := by
      rw [Fin.lt_def] at hgt
      rw [Fin.le_def]
      omega
    have hmono := hS.per_mono (u := u) hnt ht₀
    omega

/-- The ratio of a last scale of zero is zero, so the loop has ended before. -/
theorem Sound.stopsShort (h : S.Sound v u) (hzero : S.size S.LAST = 0) : S.StopsShort v u := by
  obtain ⟨r, -, -, hfit, -⟩ := h
  obtain ⟨hb, hpos, -, hroom, -⟩ := fit_eq_pure_iff.mp hfit
  obtain ⟨hstops, hmax⟩ := stops_of_biggestUnitFit hb
  obtain ⟨-, hsize⟩ := pos_of_per_pos hpos
  have hlast : r.unit ≠ S.LAST := by
    intro heq
    rw [heq, hzero] at hsize
    exact absurd hsize (lt_irrefl 0)
  obtain ⟨next, hnext⟩ := exists_next hlast
  exact ⟨r.unit, next, hstops, hnext, hmax next hnext, hroom⟩

theorem StopsShort.exists_fit (h : S.StopsShort v u) (hS : Scale S.size)
    (hneg : ¬ S.NegatedRatio v u) : ∃ r, S.fit v u = pure (.ok r) := by
  obtain ⟨b, t, hstops, ht, hmax, hroom⟩ := h
  have hbt : b ≤ t := by
    rw [Fin.le_def]
    omega
  obtain ⟨-, ht₀⟩ := pos_of_per_pos (Nat.zero_lt_of_lt (hstops.next t ht))
  have hmono := hS.per_mono (u := u) hbt ht₀
  have hnext : ∀ t' : S.Unit, t'.val = b.val + 1 →
      (per S.size u t' : Int) ≤ IntType.isize.max := by
    intro t' ht'
    rwa [show t' = t from Fin.ext (by omega)]
  exact fit_of_stops hS (hS.pos_of_le hbt ht₀) hstops hneg hnext (by omega) hroom

/-- **A table that is let through is sound but for two kinds of inputs**: a signed minimum whose
negation is a ratio, and a value that makes the loop go on to a last scale of zero, or past ratios
that only such a table can have. -/
theorem sound_iff (hS : S.Accepted) (v : T.Val) (u : S.Unit) :
    S.Sound v u ↔ ¬ S.NegatedRatio v u ∧ (S.size S.LAST = 0 → S.StopsShort v u) := by
  constructor
  · intro h
    exact ⟨h.not_negatedRatio hS.scale, h.stopsShort⟩
  · intro h
    obtain ⟨hneg, hshort⟩ := h
    have hfit : ∃ r, S.fit v u = pure (.ok r) := by
      by_cases hzero : S.size S.LAST = 0
      · exact (hshort hzero).exists_fit hS.scale hneg
      · exact hS.exists_fit (Nat.pos_of_ne_zero hzero) hneg
    obtain ⟨r, hr⟩ := hfit
    exact sound_of_fit hr

/-- `FakeScale` of the tests. -/
def fakeScale (first : IntType.usize.Val) (scales : List IntType.usize.Val) : UnitScale where
  last := scales.length
  scale := (first :: scales).get
  symbol := fun _ => [0x78]

theorem sound_iff_decimal : ∃ (S : UnitScale) (v : IntType.i8.Val) (u : S.Unit), S.Accepted ∧
    v.val = -128 ∧
    (S.Sound v u ↔ ¬ S.NegatedRatio v u ∧ (S.size S.LAST = 0 → S.StopsShort v u)) :=
  have h : (fakeScale 1 [IntType.usize.wrap 10, IntType.usize.wrap 100]).Accepted := by
    unfold Accepted
    decide +kernel
  ⟨_, IntType.i8.wrap (-128), 0, h, by decide, sound_iff h _ _⟩

/-- `-128` of a unit of which `128` make the next: the ratio is cast to `i8`. -/
theorem accepted_unsound : ¬ ∀ (S : UnitScale) (T : IntType) (v : T.Val) (u : S.Unit),
    S.Accepted → S.Sound v u := by
  intro hall
  have haccepted : (fakeScale 1 [IntType.usize.wrap 128]).Accepted := by
    unfold Accepted
    decide +kernel
  have hfault : (fakeScale 1 [IntType.usize.wrap 128]).fit (IntType.i8.wrap (-128)) 0 =
      .fault .castOutOfRange := by decide +kernel
  obtain ⟨r, -, -, hfit, -⟩ := hall _ .i8 (IntType.i8.wrap (-128)) 0 haccepted
  rw [hfault] at hfit
  exact Checked.fault_ne_pure _ _ hfit

end Shclog.UnitScale
