import Shclog.Lib.OrderStatistic
import Shclog.Lib.Sums
import Shclog.Bench.Sample.Basic

/-! # What a `Sample` is a sample of

Everything the class answers is a function of the list of values it has accepted. `Holds` says which
fields stand for what of that list, `answer` what a call returns for it, and each call of the class
is then one step of the list. -/

namespace Shclog.Sample

open Lib

variable {T : IntType} {s s' : Sample T} {l : List T.Val} {v : T.Val} {c : Call T} {r : Result T}
  {e : Event T} {tr : List (Event T)}

/-! ## The total -/

/-- The exact sum. -/
def sum (l : List T.Val) : Int := (l.map Subtype.val).sum

/-- The sum is one that the type can represent. -/
def Representable (l : List T.Val) : Prop := T.InRange (sum l)

instance (l : List T.Val) : Decidable (Representable l) := inferInstanceAs (Decidable (T.InRange _))

theorem sum_concat (l : List T.Val) (v : T.Val) : sum (l ++ [v]) = sum l + v.val := by
  simp [sum]

/-- What has become of `_total`. -/
def totalOf (l : List T.Val) : Overflow T.Val := l.foldl addTotal ⟨0, false⟩

theorem totalOf_concat (l : List T.Val) (v : T.Val) :
    totalOf (l ++ [v]) = addTotal (totalOf l) v := by
  simp [totalOf]

/-- As long as every sum on the way is representable, the total is the sum. -/
theorem totalOf_of_representable (h : EveryPrefix Representable l) :
    totalOf l = ⟨⟨sum l, h l List.prefix_rfl⟩, false⟩ := by
  induction l using List.reverseRecOn with
  | nil => rfl
  | append_singleton l v ih =>
      obtain ⟨hl, hlast⟩ := everyPrefix_concat.mp h
      rw [Representable, sum_concat] at hlast
      have hadd : addWithOverflow ⟨sum l, hl l List.prefix_rfl⟩ v =
          ⟨⟨sum l + v.val, hlast⟩, false⟩ := addWithOverflow_of_inRange hlast
      simp [totalOf_concat, ih hl, addTotal, hadd, sum_concat]

/-- Once one of them is not, the total is the maximum for good. -/
theorem totalOf_of_not_representable (h : ¬ EveryPrefix Representable l) :
    totalOf l = ⟨⟨T.max, T.inRange_max⟩, true⟩ := by
  induction l using List.reverseRecOn with
  | nil => exact absurd (everyPrefix_nil.mpr T.inRange_zero) h
  | append_singleton l v ih =>
      rw [totalOf_concat]
      by_cases hl : EveryPrefix Representable l
      · have hlast : ¬ T.InRange (sum l + v.val) := by
          rw [← sum_concat]
          intro hlast
          exact h (everyPrefix_concat.mpr ⟨hl, hlast⟩)
        simp [totalOf_of_representable hl, addTotal, addWithOverflow, hlast]
      · rw [ih hl]
        rfl

/-! ## States -/

/-- The sample has accepted `l`. -/
structure Holds (s : Sample T) (l : List T.Val) : Prop where
  count_eq : s.count = l.length
  room : s.count ≤ s.samples.len
  span_perm : s.span.Perm l
  sorted : s.samples_sorted = true → s.span.Pairwise (· ≤ ·)
  min_eq : s._min = l.foldl min ⟨T.max, T.inRange_max⟩
  max_eq : s._max = l.foldl max ⟨T.lowest, T.inRange_lowest⟩
  total_eq : s._total = totalOf l

theorem new_holds (samples : Slice T.Val) : Holds (new samples) [] where
  count_eq := rfl
  room := Nat.zero_le _
  span_perm := List.Perm.refl []
  sorted := fun _ => List.Pairwise.nil
  min_eq := rfl
  max_eq := rfl
  total_eq := rfl

/-! ## Calls -/

/-- The value of rank `⌊p * (count - 1)⌋`. -/
def percentileOf (l : List T.Val) (p : F64) : Except PercentileError T.Val :=
  match percentile? p with
  | none => .error .invalidPercentile
  | some p =>
    match ranked l ⌊p * (l.length - 1 : Nat)⌋.toNat with
    | none => .error .emptySamples
    | some v => .ok v

/-- What a sample that has accepted `l`, in a buffer of `len`, returns. -/
def answer (len : Nat) (l : List T.Val) : Call T → Result T
  | .push _ => .push (if l.length < len then .success else .bufferFull)
  | .percentile p => .percentile (percentileOf l p)
  | .min => .min (if l = [] then .error .emptySamples else .ok (l.foldl min ⟨T.max, T.inRange_max⟩))
  | .max =>
    .max (if l = [] then .error .emptySamples else .ok (l.foldl max ⟨T.lowest, T.inRange_lowest⟩))
  | .total => .total (if l = [] then .error .emptySamples else .ok (totalOf l))

/-- What it has accepted then. -/
def after (len : Nat) (l : List T.Val) : Call T → List T.Val
  | .push v => if l.length < len then l ++ [v] else l
  | .percentile _ | .min | .max | .total => l

theorem Holds.push (h : Holds s l) (v : T.Val) :
    ∃ s', s.push v = pure (if l.length < s.samples.len then .success else .bufferFull, s') ∧
      s'.samples.len = s.samples.len ∧ Holds s' (after s.samples.len l (.push v)) := by
  have hcount := h.count_eq
  show ∃ s', _ ∧ _ ∧ Holds s' (if l.length < s.samples.len then l ++ [v] else l)
  unfold Sample.push
  by_cases hroom : l.length < s.samples.len
  · rw [if_neg (by omega), if_pos hroom, if_pos hroom, Slice.set_of_lt (by omega), pure_bind]
    refine ⟨_, rfl, rfl, ?_, ?_, ?_, ?_, ?_, ?_, ?_⟩
    · simp [hcount]
    · show s.count + 1 ≤ s.samples.len
      omega
    · show (Slice.toList _ (s.count + 1)).Perm _
      rw [Slice.toList_update]
      exact h.span_perm.append_right [v]
    · intro hsorted
      cases hsorted
    · simp [h.min_eq]
    · simp [h.max_eq]
    · rw [totalOf_concat, ← h.total_eq]
  · rw [if_pos (by omega), if_neg hroom, if_neg hroom]
    exact ⟨s, rfl, rfl, h⟩

/-- The buffer is sorted in place, and holds what it has held. -/
theorem Holds.sort (h : Holds s l) :
    ∃ s', s.sort = pure s' ∧ s'.samples.len = s.samples.len ∧ Holds s' l ∧
      s'.span = l.insertionSort (· ≤ ·) := by
  unfold Sample.sort
  cases hflag : s.samples_sorted with
  | true => exact ⟨s, rfl, rfl, h, eq_insertionSort (h.sorted hflag) h.span_perm⟩
  | false =>
      simp only [Bool.not_false, if_true]
      rw [Checked.assert_true _ h.room, pure_bind]
      have hsort := List.perm_insertionSort (· ≤ ·) s.span
      have hlen : (s.span.insertionSort (· ≤ ·)).length = s.count := by
        rw [List.length_insertionSort]
        exact Slice.length_toList ..
      have hspan : Sample.span { s with
          samples := s.samples.storeList (s.span.insertionSort (· ≤ ·)), samples_sorted := true } =
          s.span.insertionSort (· ≤ ·) := by
        show Slice.toList _ s.count = _
        rw [← hlen, Slice.toList_storeList]
      have hordered := List.pairwise_insertionSort (· ≤ ·) s.span
      refine ⟨_, rfl, rfl, ⟨h.count_eq, h.room, ?_, ?_, h.min_eq, h.max_eq, h.total_eq⟩, ?_⟩
      · rw [hspan]
        exact hsort.trans h.span_perm
      · intro _
        rw [hspan]
        exact hordered
      · rw [hspan]
        exact eq_insertionSort hordered (hsort.trans h.span_perm)

/-- The index is that of an element, and fits its type. -/
theorem floor_rank {p : ℚ} {n : Nat} (h₀ : 0 ≤ p) (h₁ : p ≤ 1) (hn : 0 < n) :
    0 ≤ p * (n - 1 : Nat) ∧ 0 ≤ ⌊p * (n - 1 : Nat)⌋ ∧ ⌊p * (n - 1 : Nat)⌋ < n := by
  have hpos : (0 : ℚ) ≤ (n - 1 : Nat) := Nat.cast_nonneg _
  have hle : p * (n - 1 : Nat) ≤ (n - 1 : Nat) := mul_le_of_le_one_left hpos h₁
  have hnonneg : 0 ≤ p * (n - 1 : Nat) := mul_nonneg h₀ hpos
  refine ⟨hnonneg, Int.floor_nonneg.mpr hnonneg, ?_⟩
  have hfloor : (⌊p * (n - 1 : Nat)⌋ : ℚ) ≤ (n - 1 : Nat) := (Int.floor_le _).trans hle
  have : ⌊p * (n - 1 : Nat)⌋ ≤ (n - 1 : Nat) := by exact_mod_cast hfloor
  omega

theorem percentile?_eq_some {p : F64} {x : ℚ} (h : percentile? p = some x) : 0 ≤ x ∧ x ≤ 1 := by
  cases p with
  | finite y =>
      rw [percentile?] at h
      split at h
      · cases h
      · next hin =>
          cases h
          rw [not_or, not_lt, not_lt] at hin
          exact ⟨hin.2, hin.1⟩
  | _ => cases h

theorem Holds.percentile (h : Holds s l) (p : F64) :
    ∃ s', s.percentile p = pure (percentileOf l p, s') ∧ s'.samples.len = s.samples.len ∧
      Holds s' l := by
  unfold Sample.percentile percentileOf
  cases hp : percentile? p with
  | none => exact ⟨s, rfl, rfl, h⟩
  | some x =>
      obtain ⟨h₀, h₁⟩ := percentile?_eq_some hp
      dsimp only
      by_cases hempty : s.count = 0
      · have hnil : l = [] := List.eq_nil_of_length_eq_zero (h.count_eq.symm.trans hempty)
        rw [if_pos hempty, hnil]
        exact ⟨s, rfl, rfl, hnil ▸ h⟩
      · obtain ⟨s', hsort, hlen, h', hspan⟩ := h.sort
        have hcount : s'.count = s.count := h'.count_eq.trans h.count_eq.symm
        obtain ⟨hx, hlow, hhigh⟩ := floor_rank h₀ h₁ (Nat.pos_of_ne_zero hempty)
        have hroom := h'.room
        have hsize := s'.samples.len_lt
        have husize : IntType.usize.InRange ⌊x * (s.count - 1 : Nat)⌋ := by
          refine IntType.inRange_of_le hlow ?_
          show _ ≤ (2 : Int) ^ 64 - 1
          omega
        have hidx : ⌊x * (s.count - 1 : Nat)⌋.toNat < s'.count := by omega
        have hrank : ranked l ⌊x * (s.count - 1 : Nat)⌋.toNat =
            some (s'.samples.data ⌊x * (s.count - 1 : Nat)⌋.toNat) := by
          rw [ranked, ← hspan]
          exact Slice.getElem?_toList hidx
        rw [if_neg hempty, hsort, pure_bind, hcount, Eval.intCastFloat_of_nonneg hx husize,
          pure_bind, Slice.get_of_lt (hidx.trans_le hroom), pure_bind, ← h.count_eq, hrank]
        exact ⟨s', rfl, hlen, h'⟩

/-- **A call** never faults, returns what the list answers, and does to it what it should. -/
theorem Holds.call (h : Holds s l) (c : Call T) :
    ∃ s', s.call c = pure (answer s.samples.len l c, s') ∧ s'.samples.len = s.samples.len ∧
      Holds s' (after s.samples.len l c) := by
  have hzero : s.count = 0 ↔ l = [] := by rw [h.count_eq, List.length_eq_zero_iff]
  cases c with
  | push v =>
      obtain ⟨s', hpush, hlen, h'⟩ := h.push v
      refine ⟨s', ?_, hlen, h'⟩
      rw [Sample.call, hpush, pure_bind]
      rfl
  | percentile p =>
      obtain ⟨s', hperc, hlen, h'⟩ := h.percentile p
      refine ⟨s', ?_, hlen, h'⟩
      rw [Sample.call, hperc, pure_bind]
      rfl
  | min =>
      refine ⟨s, ?_, rfl, h⟩
      simp only [Sample.call, Sample.min, answer, hzero, h.min_eq]
  | max =>
      refine ⟨s, ?_, rfl, h⟩
      simp only [Sample.call, Sample.max, answer, hzero, h.max_eq]
  | total =>
      refine ⟨s, ?_, rfl, h⟩
      simp only [Sample.call, Sample.total, answer, hzero, h.total_eq]

end Shclog.Sample
