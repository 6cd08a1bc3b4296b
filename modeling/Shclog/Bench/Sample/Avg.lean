import Shclog.Reduce
import Shclog.Bench.Sample.Statistics

/-! # The mean of a `Sample`, over integers

`avg<C>` divides the total, and adds everything up again when the total has overflowed. What it adds
up are values of `T`, so that two of them may not fit what they are added in, however wide `C` is.
-/

namespace Shclog.Sample

open Lib IntType

variable {T C : IntType} {s : Sample T} {l : List T.Val} {tr : List (Event T)}
  {samples : Slice T.Val} {g : Grouping T}

inductive AvgError where
  | emptySamples
  deriving DecidableEq

/-- `sum / n`, returned as a `C`. -/
def quotient (sum n : C.Val) : Eval (Except AvgError C.Val) := do
  let q ← Eval.div sum n
  let m ← Eval.convert C q.val
  pure (.ok m)

/-- `avg<C>`, when `std::reduce` groups what it adds as `g` does. -/
def avg (C : IntType) (g : Grouping T) (s : Sample T) : Eval (Except AvgError C.Val) :=
  if s.count = 0 then pure (.error .emptySamples)
  else do
    let n ← Eval.intCast C s.count
    if s._total.overflow then
      let a ← g.eval C
      let sum ← Eval.convert C a.2.val
      quotient sum n
    else
      let total ← Eval.intCast C s._total.value.val
      quotient total n

/-- `avg<C>` returns the mean of `l`, towards zero, however `std::reduce` groups it. -/
def RecoversMean (C : IntType) (s : Sample T) (l : List T.Val) : Prop :=
  ∀ g : Grouping T, g.Covers s.span →
    ∃ m, s.avg C g = pure (.ok m) ∧ m.val = (sum l).tdiv l.length

/-- The sum of the positive values and that of the negative ones fit what elements are added in, and
the result. -/
structure SignsFit (C : IntType) (l : List T.Val) : Prop where
  promote_pos : T.promote.InRange (sumPos (l.map Subtype.val))
  promote_neg : T.promote.InRange (sumNeg (l.map Subtype.val))
  pos : C.InRange (sumPos (l.map Subtype.val))
  neg : C.InRange (sumNeg (l.map Subtype.val))

/-! ## Enough -/

theorem quotient_eq {x n : C.Val} (hn : 0 < n.val) :
    ∃ m, quotient x n = pure (.ok m) ∧ m.val = x.val.tdiv n.val := by
  have hq : C.InRange (x.val.tdiv n.val) := x.property.tdiv hn
  refine ⟨⟨_, hq⟩, ?_, rfl⟩
  have hdiv : Eval.div x n = pure ⟨x.val.tdiv n.val, hq.promote⟩ :=
    Eval.div_eq_pure_iff.mpr ⟨hn.ne', rfl⟩
  rw [quotient, hdiv, pure_bind, Eval.convert_of_inRange hq, pure_bind]

/-- The sum of any of the values fits where those of each sign do. -/
theorem SignsFit.subperm (h : SignsFit C l) {l' : List T.Val} (hl : l'.Subperm l) :
    T.promote.InRange (sum l') ∧ C.InRange (sum l') := by
  obtain ⟨hlow, hhigh⟩ := sum_mem_of_subperm (List.Subperm.map Subtype.val_injective hl)
  exact ⟨⟨h.promote_neg.1.trans hlow, hhigh.trans h.promote_pos.2⟩,
    h.neg.1.trans hlow, hhigh.trans h.pos.2⟩

theorem Holds.recoversMean (h : Holds s l) (hC : Widens T C) (hpos : 0 < s.count)
    (hcount : (s.count : Int) ≤ C.max)
    (hfit : EveryPrefix Representable l ∨ SignsFit C l) : RecoversMean C s l := by
  intro g hg
  have hn : C.InRange s.count := IntType.inRange_of_le (Int.natCast_nonneg _) hcount
  have hnpos : 0 < (⟨s.count, hn⟩ : C.Val).val := Int.natCast_pos.mpr hpos
  rw [avg, if_neg hpos.ne', Eval.intCast_of_inRange hn, pure_bind, h.total_eq, ← h.count_eq]
  by_cases hrep : EveryPrefix Representable l
  · have hsum : C.InRange (sum l) := hC.inRange (hrep l List.prefix_rfl)
    rw [totalOf_of_representable hrep]
    dsimp only
    rw [if_neg Bool.false_ne_true, Eval.intCast_of_inRange hsum, pure_bind]
    exact quotient_eq hnpos
  · rw [totalOf_of_not_representable hrep, if_pos rfl]
    have hsigns := hfit.resolve_left hrep
    have hperm : g.elems.Perm l := hg.elems.trans h.span_perm
    obtain ⟨a, ha, -⟩ := Grouping.exists_eval hC hperm.subperm fun l' => hsigns.subperm
    have hval : a.2.val = sum l := by
      rw [Grouping.sum_of_eval ha]
      exact (hperm.map Subtype.val).sum_eq
    have hsum : C.InRange a.2.val := hval ▸ (hsigns.subperm (List.Subperm.refl l)).2
    rw [ha, pure_bind, Eval.convert_of_inRange hsum, pure_bind, ← hval]
    exact quotient_eq hnpos

/-! ## No less -/

theorem RecoversMean.count_le (h : RecoversMean C s l) (hpos : 0 < s.count) :
    (s.count : Int) ≤ C.max := by
  obtain ⟨m, havg, -⟩ := h (Grouping.bySign s.span) (Grouping.bySign_covers _)
  rw [avg, if_neg hpos.ne', Checked.bind_eq_pure_iff] at havg
  obtain ⟨n, hn, -⟩ := havg
  rw [← Eval.intCast_eq_pure_iff.mp hn]
  exact n.property.2

/-- Adding the values of each sign first must not go wrong. -/
theorem RecoversMean.signsFit (h : RecoversMean C s l) (hholds : Holds s l) (hpos : 0 < s.count)
    (hover : s._total.overflow = true) : SignsFit C l := by
  have hcovers := Grouping.bySign_covers l
  obtain ⟨m, havg, -⟩ := h (Grouping.bySign l)
    ⟨hcovers.elems.trans hholds.span_perm.symm, hcovers.inits⟩
  rw [avg, if_neg hpos.ne', Checked.bind_eq_pure_iff] at havg
  obtain ⟨n, -, havg⟩ := havg
  rw [if_pos hover, Checked.bind_eq_pure_iff] at havg
  obtain ⟨a, ha, -⟩ := havg
  obtain ⟨⟨hpp, hp⟩, hpn, hn⟩ := Grouping.eval_bySign ha
  exact ⟨hpp, hpn, hp, hn⟩

/-- **`avg<C>` recovers the mean**, however the standard library groups the sum, exactly when the
count fits and either the total has not overflowed or the values of each sign add up within what
they are added in. -/
theorem recoversMean_iff (hC : Widens T C) (h : Run Step (new samples) tr s) (hpos : 0 < s.count) :
    RecoversMean C s (accepted tr) ↔
      (s.count : Int) ≤ C.max ∧
        ((∀ pre, pre <+: accepted tr → T.InRange (sum pre)) ∨ SignsFit C (accepted tr)) := by
  obtain ⟨-, hholds, -⟩ := run_holds h
  constructor
  · intro hmean
    refine ⟨hmean.count_le hpos, ?_⟩
    by_cases hrep : EveryPrefix Representable (accepted tr)
    · exact Or.inl hrep
    · refine Or.inr (hmean.signsFit hholds hpos ?_)
      rw [hholds.total_eq, totalOf_of_not_representable hrep]
  · rintro ⟨hcount, hfit⟩
    exact hholds.recoversMean hC hpos hcount hfit

/-- The total has overflowed; the mean of the four is recovered. -/
theorem recoversMean_i32 : ∃ (samples : Slice IntType.i32.Val) (tr : List (Event .i32))
    (s : Sample .i32), Run Step (new samples) tr s ∧
      (accepted tr).map Subtype.val = [-2000000000, -100000000, -100000000, 50] ∧
      (RecoversMean .i64 s (accepted tr) ↔ (s.count : Int) ≤ IntType.i64.max ∧
        ((∀ pre, pre <+: accepted tr → IntType.i32.InRange (sum pre)) ∨
          SignsFit .i64 (accepted tr))) :=
  have h := Run.of_exec_isSome step_of_move
    (show (exec move (new ⟨fun _ => 0, 4, of_decide_eq_true rfl⟩)
      [.push (IntType.i32.wrap (-2000000000)), .push (IntType.i32.wrap (-100000000)),
        .push (IntType.i32.wrap (-100000000)), .push (IntType.i32.wrap 50)]).isSome = true
      by decide +kernel)
  ⟨_, _, _, h, by decide +kernel, recoversMean_iff (by decide) h (by decide +kernel)⟩

/-- Four times four billion: each pair wraps around in `u32`, and the mean comes out as less than
half of what it is. -/
theorem avg_wraps : ¬ ∀ (T C : IntType) (samples : Slice T.Val) (tr : List (Event T))
    (s : Sample T), Widens T C → Run Step (new samples) tr s → 0 < s.count →
      RecoversMean C s (accepted tr) := by
  intro hall
  let v : IntType.u32.Val := IntType.u32.wrap 4000000000
  have h := Run.of_exec_isSome step_of_move
    (show (exec move (new ⟨fun _ => 0, 4, of_decide_eq_true rfl⟩)
      [.push v, .push v, .push v, .push v]).isSome = true by decide +kernel)
  obtain ⟨m, havg, -⟩ := hall .u32 .u64 _ _ _ (by decide) h (by decide +kernel)
    (Grouping.init.block v v v v) ⟨by decide +kernel, rfl⟩
  have hwrong : avg .u64 (Grouping.init.block v v v v)
      ((exec move (new ⟨fun _ => 0, 4, of_decide_eq_true rfl⟩)
        [.push v, .push v, .push v, .push v]).get (by decide +kernel)).2 =
      .lossy (.ok (IntType.u64.wrap 1852516352)) := by decide +kernel
  rw [hwrong] at havg
  exact Checked.lossy_ne_pure _ _ havg

end Shclog.Sample
