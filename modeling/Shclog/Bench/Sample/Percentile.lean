import Shclog.Bench.Sample.Statistics

/-! # `percentile` is an order statistic

It sorts the buffer, but only the first time, and every push spoils that. All the same it returns
what one would read off the sorted list of accepted values, and neither it nor anything else can
tell how often it has been called before. -/

namespace Shclog.Sample

open Lib

variable {T : IntType} {s s' : Sample T} {l : List T.Val} {v w : T.Val} {p q : ℚ}
  {tr : List (Event T)} {samples : Slice T.Val}

/-! ## The value of a list -/

theorem percentileOf_finite (h₀ : 0 ≤ p) (h₁ : p ≤ 1) (hl : l ≠ []) :
    ∃ v, percentileOf l (.finite p) = .ok v ∧
      ranked l ⌊p * (l.length - 1 : Nat)⌋.toNat = some v := by
  have hin : percentile? (.finite p) = some p := by
    apply if_neg
    rw [not_or, not_lt, not_lt]
    exact ⟨h₁, h₀⟩
  have hpos : 0 < l.length := List.length_pos_iff.mpr hl
  obtain ⟨-, hlow, hhigh⟩ := floor_rank h₀ h₁ hpos
  obtain ⟨v, hv⟩ := exists_ranked (l := l) (i := ⌊p * (l.length - 1 : Nat)⌋.toNat) (by omega)
  refine ⟨v, ?_, hv⟩
  rw [percentileOf, hin]
  dsimp only
  rw [hv]

theorem percentileOf_mono (h₀ : 0 ≤ p) (hpq : p ≤ q) (h₁ : q ≤ 1) (hl : l ≠ [])
    (hv : percentileOf l (.finite p) = .ok v) (hw : percentileOf l (.finite q) = .ok w) :
    v ≤ w := by
  obtain ⟨v', hv', hrank⟩ := percentileOf_finite h₀ (hpq.trans h₁) hl
  obtain ⟨w', hw', hrank'⟩ := percentileOf_finite (h₀.trans hpq) h₁ hl
  cases hv.symm.trans hv'
  cases hw.symm.trans hw'
  have hpos : (0 : ℚ) ≤ (l.length - 1 : Nat) := Nat.cast_nonneg _
  have hfloor : ⌊p * (l.length - 1 : Nat)⌋ ≤ ⌊q * (l.length - 1 : Nat)⌋ :=
    Int.floor_le_floor (mul_le_mul_of_nonneg_right hpq hpos)
  exact ranked_mono (Int.toNat_le_toNat hfloor) hrank hrank'

theorem percentileOf_zero (hv : IsLeast {x | x ∈ l} v) : percentileOf l (.finite 0) = .ok v := by
  obtain ⟨w, hw, hrank⟩ := percentileOf_finite le_rfl zero_le_one (List.ne_nil_of_mem hv.1)
  rw [zero_mul, Int.floor_zero, Int.toNat_zero, ranked_zero hv] at hrank
  rw [hw, Option.some.inj hrank]

theorem percentileOf_one (hv : IsGreatest {x | x ∈ l} v) : percentileOf l (.finite 1) = .ok v := by
  obtain ⟨w, hw, hrank⟩ := percentileOf_finite zero_le_one le_rfl (List.ne_nil_of_mem hv.1)
  rw [one_mul, Int.floor_natCast, Int.toNat_natCast, ranked_last hv] at hrank
  rw [hw, Option.some.inj hrank]

/-! ## The calls -/

theorem Holds.step_percentile (h : Holds s l) (p : F64) :
    ∃ s', Step s (.percentile p, .percentile (percentileOf l p)) s' := by
  obtain ⟨s', hcall, -, -⟩ := h.call (.percentile p)
  exact ⟨s', hcall⟩

/-- What `percentile` promises of the sample `s` that the run `tr` leads to. -/
structure Ranks (samples : Slice T.Val) (tr : List (Event T)) (s : Sample T) : Prop where
  /-- The rank among the accepted values, in ascending order. -/
  rank : 0 < s.count → ∀ p, 0 ≤ p → p ≤ 1 →
    ∃ v s', Step s (.percentile (.finite p), .percentile (.ok v)) s' ∧
      ((accepted tr).insertionSort (· ≤ ·))[⌊p * (s.count - 1 : Nat)⌋.toNat]? = some v
  mono : 0 < s.count → ∀ p q v w s₁ s₂, 0 ≤ p → p ≤ q → q ≤ 1 →
    Step s (.percentile (.finite p), .percentile (.ok v)) s₁ →
    Step s (.percentile (.finite q), .percentile (.ok w)) s₂ → v ≤ w
  zero : 0 < s.count →
    ∃ v s', Step s (.percentile (.finite 0), .percentile (.ok v)) s' ∧ s.min = .ok v
  one : 0 < s.count →
    ∃ v s', Step s (.percentile (.finite 1), .percentile (.ok v)) s' ∧ s.max = .ok v
  /-- After any other history of the same pushes, every call has the same result. -/
  unaffected : ∀ samples' tr' s', Run Step (new samples') tr' s' → samples'.len = samples.len →
    pushed tr' = pushed tr →
    ∀ c r r' t t', Step s (c, r) t → Step s' (c, r') t' → r' = r

/-- **`percentile` is an order statistic** of the accepted values, whatever was called before. -/
theorem run_ranks (h : Run Step (new samples) tr s) : Ranks samples tr s := by
  obtain ⟨hlen, hholds, htake⟩ := run_holds h
  refine ⟨?_, ?_, ?_, ?_, ?_⟩
  · intro hpos p h₀ h₁
    obtain ⟨v, hv, hrank⟩ := percentileOf_finite h₀ h₁ (hholds.count_pos.mp hpos)
    obtain ⟨s', hs⟩ := hholds.step_percentile (.finite p)
    rw [hv] at hs
    rw [← hholds.count_eq] at hrank
    exact ⟨v, s', hs, hrank⟩
  · intro hpos p q v w s₁ s₂ h₀ hpq h₁ hv hw
    have hv' : .percentile (.ok v) = answer _ _ _ := (hholds.step hv).1
    have hw' : .percentile (.ok w) = answer _ _ _ := (hholds.step hw).1
    exact percentileOf_mono h₀ hpq h₁ (hholds.count_pos.mp hpos) (Result.percentile.inj hv').symm
      (Result.percentile.inj hw').symm
  · intro hpos
    obtain ⟨v, hmin, hv⟩ := hholds.min hpos
    obtain ⟨s', hs⟩ := hholds.step_percentile (.finite 0)
    rw [percentileOf_zero hv] at hs
    exact ⟨v, s', hs, hmin⟩
  · intro hpos
    obtain ⟨v, hmax, hv⟩ := hholds.max hpos
    obtain ⟨s', hs⟩ := hholds.step_percentile (.finite 1)
    rw [percentileOf_one hv] at hs
    exact ⟨v, s', hs, hmax⟩
  · intro samples' tr' s' h' hlen₀ hsame c r r' t t' hs hs'
    obtain ⟨hlen', hholds', htake'⟩ := run_holds h'
    have haccepted : accepted tr' = accepted tr := by rw [htake, htake', hlen₀, hsame]
    have hr : r = answer s.samples.len (accepted tr) c := (hholds.step hs).1
    have hr' : r' = answer s'.samples.len (accepted tr') c := (hholds'.step hs').1
    rw [hr, hr', haccepted, hlen, hlen', hlen₀]

/-- A push behind a sorted prefix. -/
theorem run_ranks_u8 : ∃ (samples : Slice IntType.u8.Val) (tr : List (Event .u8)) (s : Sample .u8),
    Run Step (new samples) tr s ∧ s.span.map Subtype.val = [10, 30, 20] ∧ Ranks samples tr s :=
  have h := Run.of_exec_isSome step_of_move
    (show (exec move (new ⟨fun _ => 0, 3, of_decide_eq_true rfl⟩) [.push (IntType.u8.wrap 30),
      .push (IntType.u8.wrap 10), .percentile (.finite (1 / 2)),
      .push (IntType.u8.wrap 20)]).isSome = true by decide +kernel)
  ⟨_, _, _, h, by decide +kernel, run_ranks h⟩

end Shclog.Sample
