import Mathlib.Data.Prod.Lex
import Shclog.Bench.Report.Scales

/-! # What is shown of a time or a size

With the tables of `report.hpp`, `fit` always goes right, and what it returns is what `Lib.Shown`
says of the value. Its laws are those of `Lib.Shown`. -/

namespace Shclog.UnitScale

open Lib IntType

variable {S : UnitScale} {T : IntType} {v w : T.Val} {u u' : S.Unit} {r : S.ValueInUnit T}

namespace Regular

theorem exists_fit (hS : S.Regular) (v : T.Val) (u : S.Unit) : ∃ r, S.fit v u = pure (.ok r) := by
  apply hS.accepted.exists_fit hS.last_pos
  intro hneg
  obtain ⟨hlow, -, t, hut, ht⟩ := hneg
  apply hS.not_negated T u t hut
  rw [ht, hlow]

theorem shown (hS : S.Regular) (h : S.fit v u = pure (.ok r)) :
    Shown S.size v.val u r.unit r.whole.val r.tenth.val := by
  obtain ⟨hb, -, -, -, hw, ht⟩ := fit_eq_pure_iff.mp h
  refine ⟨?_, hw, ht⟩
  exact (stops_of_biggestUnitFit hb).1.isGreatest hS.accepted.scale hS.last_pos

/-- **`fit` returns what is to be shown of the value**, and nothing else. -/
theorem fit_eq_pure_iff_shown (hS : S.Regular) :
    S.fit v u = pure (.ok r) ↔ Shown S.size v.val u r.unit r.whole.val r.tenth.val := by
  refine ⟨hS.shown, ?_⟩
  intro h
  obtain ⟨r', hr'⟩ := hS.exists_fit v u
  obtain ⟨hunit, hwhole, htenth⟩ := h.unique (hS.shown hr')
  -- `fit` has a result, and what is shown is unique
  have hr : r = r' := by
    cases r
    cases r'
    congr 1
    · exact Subtype.ext hwhole
    · exact Subtype.ext htenth
  rw [hr]
  exact hr'

end Regular

theorem regular_of_eq (hS : S = TimeUnit ∨ S = ByteUnit) : S.Regular := by
  rcases hS with rfl | rfl
  · exact TimeUnit.regular
  · exact ByteUnit.regular

/-- There is one result. -/
theorem eq_of_fit {r' : S.ValueInUnit T} (h : S.fit v u = pure (.ok r))
    (h' : S.fit v u = pure (.ok r')) : r = r' :=
  Except.ok.inj (Checked.pure_inj.mp (h.symm.trans h'))

/-! ## The truncation -/

/-- The intended truncation of a value of the unit `u`, in terms of the ratios. -/
structure Truncated (v : T.Val) (u : S.Unit) (r : S.ValueInUnit T) : Prop where
  unit : IsGreatest {t | t = u ∨ (u < t ∧ per S.size u t ≤ v.val.natAbs)} r.unit
  whole : r.whole.val = v.val.tdiv (per S.size u r.unit)
  tenth : r.tenth.val =
    if per S.size u r.unit ≠ 1 ∧ |r.whole.val| < 10 then
      (10 * (v.val.natAbs % per S.size u r.unit) / per S.size u r.unit : Nat)
    else 0
  tenth_le : r.tenth.val ≤ 9
  whole_ne_zero : r.tenth.val ≠ 0 → r.whole.val ≠ 0

/-- **`fit` truncates**: it goes right for every value, and returns the biggest unit that is
reached, the whole ones of it, and the tenths if they are to be shown. -/
theorem fit_truncates (hS : S = TimeUnit ∨ S = ByteUnit) (v : T.Val) (u : S.Unit) :
    ∃ r, S.fit v u = pure (.ok r) ∧ Truncated v u r := by
  have hreg := regular_of_eq hS
  have hscale := hreg.accepted.scale
  obtain ⟨r, hr⟩ := hreg.exists_fit v u
  have hshown := hreg.shown hr
  obtain ⟨-, hpos, -, -, hw, ht⟩ := fit_eq_pure_iff.mp hr
  refine ⟨r, hr, hshown.unit, hw, ?_, ?_, ?_⟩
  · have habs : |r.whole.val| < 10 ↔ v.val.natAbs / per S.size u r.unit < 10 := by
      rw [Int.abs_eq_natAbs, hshown.natAbs_whole]
      omega
    simp only [ht, habs]
    by_cases hone : per S.size u r.unit = 1
    -- of a single unit no fraction is left over
    · simp [hone, tenths_one]
    · rw [tenths]
      simp [hone]
  · have := tenths_le hpos v.val.natAbs
    omega
  · intro hne
    apply hshown.whole_ne_zero hscale hreg.last_pos
    intro hzero
    apply hne
    rw [ht, hzero]
    simp [tenths]

/-- `-128 s` are `-2.1 m`. -/
theorem fit_truncates_i8 : ∃ r : TimeUnit.ValueInUnit .i8, r = ⟨i8.wrap (-2), u8.wrap 1, 4⟩ ∧
    TimeUnit.fit (i8.wrap (-128)) 3 = pure (.ok r) ∧ Truncated (i8.wrap (-128)) 3 r := by
  obtain ⟨r, hr, htrunc⟩ := fit_truncates (S := TimeUnit) (Or.inl rfl) (i8.wrap (-128)) 3
  exact ⟨r, eq_of_fit hr (by decide +kernel), hr, htrunc⟩

/-! ## Units -/

/-- **It does not matter in which unit a quantity is given.** -/
theorem fit_rescaled (hS : S = TimeUnit ∨ S = ByteUnit) (v w : T.Val) (hv : v.val ≠ 0)
    (hu : u' ≤ u) (hw : w.val = v.val * per S.size u' u) :
    ∃ r, S.fit v u = pure (.ok r) ∧ S.fit w u' = pure (.ok r) := by
  have hreg := regular_of_eq hS
  obtain ⟨r, hr⟩ := hreg.exists_fit v u
  refine ⟨r, hr, hreg.fit_eq_pure_iff_shown.mpr ?_⟩
  rw [hw]
  exact (hreg.shown hr).mul hreg.accepted.scale hreg.last_pos hv hu

/-- Two kibibytes, and as much in bytes. -/
theorem fit_rescaled_bytes : ∃ r : ByteUnit.ValueInUnit .u16, r = ⟨u16.wrap 2, u8.wrap 0, 1⟩ ∧
    ByteUnit.fit (u16.wrap 2) 1 = pure (.ok r) ∧ ByteUnit.fit (u16.wrap 2048) 0 = pure (.ok r) := by
  obtain ⟨r, hr, hr'⟩ := fit_rescaled (S := ByteUnit) (Or.inr rfl) (u16.wrap 2) (u16.wrap 2048)
    (by decide) (show (0 : ByteUnit.Unit) ≤ 1 by decide) (by decide +kernel)
  exact ⟨r, eq_of_fit hr (by decide +kernel), hr, hr'⟩

/-! ## Order and sign -/

/-- What results are ordered by. -/
def ValueInUnit.key (r : S.ValueInUnit T) : S.Unit ×ₗ T.Val ×ₗ IntType.u8.Val :=
  toLex (r.unit, toLex (r.whole, r.tenth))

/-- **More is not shown as less, and a sign is only a sign.** -/
theorem fit_mono_neg (hS : S = TimeUnit ∨ S = ByteUnit) (u : S.Unit) :
    (∀ v w : T.Val, 0 ≤ v.val → v.val ≤ w.val → ∃ r r' : S.ValueInUnit T,
      S.fit v u = pure (.ok r) ∧ S.fit w u = pure (.ok r') ∧ r.key ≤ r'.key) ∧
    (∀ v w : T.Val, w.val = -v.val → ∃ r r' : S.ValueInUnit T,
      S.fit v u = pure (.ok r) ∧ S.fit w u = pure (.ok r') ∧
        r'.unit = r.unit ∧ r'.tenth = r.tenth ∧ r'.whole.val = -r.whole.val) := by
  have hreg := regular_of_eq hS
  refine ⟨?_, ?_⟩
  · intro v w hv hvw
    obtain ⟨r, hr⟩ := hreg.exists_fit v u
    obtain ⟨r', hr'⟩ := hreg.exists_fit w u
    refine ⟨r, r', hr, hr', ?_⟩
    rw [ValueInUnit.key, ValueInUnit.key, Prod.Lex.toLex_le_toLex, Prod.Lex.toLex_le_toLex]
    have hle := Shown.mono hv hvw (hreg.shown hr) (hreg.shown hr')
    simpa only [Subtype.ext_iff, ← Subtype.coe_lt_coe, ← Subtype.coe_le_coe] using hle
  · intro v w hvw
    obtain ⟨r, hr⟩ := hreg.exists_fit v u
    obtain ⟨r', hr'⟩ := hreg.exists_fit w u
    have hneg := (hreg.shown hr).neg
    rw [← hvw] at hneg
    obtain ⟨hunit, hwhole, htenth⟩ := (hreg.shown hr').unique hneg
    exact ⟨r, r', hr, hr', hunit, Subtype.ext htenth, hwhole⟩

/-- A second more than `59 s` is `1 m`, and `90 s` are `1.5 m` with either sign. -/
theorem fit_mono_neg_i8 :
    (∃ r r' : TimeUnit.ValueInUnit .i8, r = ⟨i8.wrap 59, u8.wrap 0, 3⟩ ∧
      r' = ⟨i8.wrap 1, u8.wrap 0, 4⟩ ∧ TimeUnit.fit (i8.wrap 59) 3 = pure (.ok r) ∧
      TimeUnit.fit (i8.wrap 60) 3 = pure (.ok r') ∧ r.key ≤ r'.key) ∧
    (∃ r r' : TimeUnit.ValueInUnit .i8, r = ⟨i8.wrap 1, u8.wrap 5, 4⟩ ∧
      r' = ⟨i8.wrap (-1), u8.wrap 5, 4⟩ ∧ TimeUnit.fit (i8.wrap 90) 3 = pure (.ok r) ∧
      TimeUnit.fit (i8.wrap (-90)) 3 = pure (.ok r') ∧ r'.whole.val = -r.whole.val) := by
  refine ⟨?_, ?_⟩
  · obtain ⟨r, r', hr, hr', hle⟩ := (fit_mono_neg (S := TimeUnit) (Or.inl rfl) 3).1 (i8.wrap 59)
      (i8.wrap 60) (by decide) (by decide)
    exact ⟨r, r', eq_of_fit hr (by decide +kernel), eq_of_fit hr' (by decide +kernel), hr, hr', hle⟩
  · obtain ⟨r, r', hr, hr', -, -, hneg⟩ := (fit_mono_neg (S := TimeUnit) (Or.inl rfl) 3).2
      (i8.wrap 90) (i8.wrap (-90)) (by decide)
    exact ⟨r, r', eq_of_fit hr (by decide +kernel), eq_of_fit hr' (by decide +kernel), hr, hr', hneg⟩

end Shclog.UnitScale
