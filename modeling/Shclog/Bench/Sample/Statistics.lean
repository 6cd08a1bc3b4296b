import Shclog.Bench.Sample.Invariant

/-! # The running statistics of a `Sample`

What `count`, `span`, `min`, `max` and `total` are after any calls of `push` and `percentile`; and
on which side a total that has overflowed is left. -/

namespace Shclog.Sample

open Lib

variable {T : IntType} {s s' : Sample T} {l : List T.Val} {v : T.Val} {c : Call T} {e : Event T}
  {tr : List (Event T)} {samples : Slice T.Val}

/-! ## Runs -/

theorem accepted_concat (tr : List (Event T)) (e : Event T) :
    accepted (tr ++ [e]) = accepted tr ++ (accepted? e).toList :=
  Run.filterMap_snoc accepted? tr e

theorem pushed_concat (tr : List (Event T)) (e : Event T) :
    pushed (tr ++ [e]) = pushed tr ++ (pushed? e).toList :=
  Run.filterMap_snoc pushed? tr e

theorem after_eq (len : Nat) (l : List T.Val) (c : Call T) :
    after len l c = l ++ (accepted? (c, answer len l c)).toList := by
  cases c with
  | push v =>
      by_cases h : l.length < len
      · simp [after, answer, accepted?, h]
      · simp [after, answer, accepted?, h]
  | _ => simp [after, accepted?]

/-- **One step**: the call is answered as the accepted values say. -/
theorem Holds.step (h : Holds s l) (hs : Step s e s') :
    e.2 = answer s.samples.len l e.1 ∧ s'.samples.len = s.samples.len ∧
      Holds s' (l ++ (accepted? e).toList) := by
  obtain ⟨s₁, hcall, hlen, h₁⟩ := h.call e.1
  rw [Step, hcall, Checked.pure_inj, Prod.mk.injEq] at hs
  obtain ⟨hr, rfl⟩ := hs
  rw [after_eq, hr] at h₁
  exact ⟨hr.symm, hlen, h₁⟩

/-- The values accepted are those pushed until the buffer was full. -/
theorem take_pushed (ht : accepted tr = (pushed tr).take samples.len)
    (he : e.2 = answer samples.len (accepted tr) e.1) :
    accepted (tr ++ [e]) = (pushed (tr ++ [e])).take samples.len := by
  rw [accepted_concat, pushed_concat]
  obtain ⟨c, r⟩ := e
  change r = _ at he
  cases c with
  | push v =>
      rw [answer, ht, List.length_take] at he
      subst he
      by_cases hroom : (pushed tr).length < samples.len
      · have hmin : min samples.len (pushed tr).length < samples.len := by omega
        simp only [accepted?, pushed?, ht, if_pos hmin, Option.toList_some]
        rw [List.take_of_length_le hroom.le, List.take_of_length_le]
        rw [List.length_append]
        exact hroom
      · have hmin : ¬ min samples.len (pushed tr).length < samples.len := by omega
        simp only [accepted?, pushed?, ht, if_neg hmin, Option.toList_some, Option.toList_none]
        rw [List.append_nil, List.take_append_of_le_length (Nat.le_of_not_lt hroom)]
  | _ =>
      simp only [accepted?, pushed?, Option.toList_none, List.append_nil]
      exact ht

/-- **A run** leaves a sample of the values that it has accepted. -/
theorem run_holds (h : Run Step (new samples) tr s) :
    s.samples.len = samples.len ∧ Holds s (accepted tr) ∧
      accepted tr = (pushed tr).take samples.len := by
  refine h.invariant (I := fun tr s => s.samples.len = samples.len ∧ Holds s (accepted tr) ∧
    accepted tr = (pushed tr).take samples.len) ⟨rfl, new_holds samples, List.take_nil.symm⟩ ?_
  intro tr s e s' _ ⟨hlen, hholds, htake⟩ hs
  obtain ⟨hr, hlen', hholds'⟩ := hholds.step hs
  rw [hlen] at hr
  rw [← accepted_concat] at hholds'
  exact ⟨hlen'.trans hlen, hholds', take_pushed htake hr⟩

/-! ## What the class answers -/

theorem Holds.count_pos (h : Holds s l) : 0 < s.count ↔ l ≠ [] := by
  rw [h.count_eq, List.length_pos_iff]

theorem Holds.min (h : Holds s l) (hpos : 0 < s.count) :
    ∃ m, s.min = .ok m ∧ IsLeast {x | x ∈ l} m := by
  refine ⟨s._min, if_neg hpos.ne', ?_⟩
  rw [h.min_eq]
  apply isLeast_foldl_min (h.count_pos.mp hpos)
  intro x _
  exact x.property.2

theorem Holds.max (h : Holds s l) (hpos : 0 < s.count) :
    ∃ m, s.max = .ok m ∧ IsGreatest {x | x ∈ l} m := by
  refine ⟨s._max, if_neg hpos.ne', ?_⟩
  rw [h.max_eq]
  apply isGreatest_foldl_max (h.count_pos.mp hpos)
  intro x _
  exact x.property.1

theorem Holds.total (h : Holds s l) (hpos : 0 < s.count) : s.total = .ok (totalOf l) := by
  rw [Sample.total, if_neg hpos.ne', h.total_eq]

/-- What the sample `s` that a run leaves says about it. -/
structure Describes (samples : Slice T.Val) (tr : List (Event T)) (s : Sample T) : Prop where
  /-- Whatever is called next returns, and no assertion fails. -/
  returns : ∀ c, ∃ r s', Step s (c, r) s'
  count : s.count = (accepted tr).length
  count_eq_min : s.count = min samples.len (pushed tr).length
  /-- Sorting in place loses nothing. -/
  span : s.span.Perm (accepted tr)
  min : 0 < s.count → ∃ m, s.min = .ok m ∧ IsLeast {x | x ∈ accepted tr} m
  max : 0 < s.count → ∃ m, s.max = .ok m ∧ IsGreatest {x | x ∈ accepted tr} m
  total : 0 < s.count → ∃ t, s.total = .ok t ∧
    (t.overflow = true ↔ ∃ pre, pre <+: accepted tr ∧ ¬ T.InRange (sum pre)) ∧
    (t.overflow = false → t.value.val = sum (accepted tr))
  full : ∀ v s', Step s (.push v, .push .bufferFull) s' → s' = s

/-- **The running statistics describe the accepted values**: for any integer type and capacity,
after any calls. -/
theorem run_describes (h : Run Step (new samples) tr s) : Describes samples tr s := by
  obtain ⟨hlen, hholds, htake⟩ := run_holds h
  refine ⟨?_, hholds.count_eq, ?_, hholds.span_perm, hholds.min, hholds.max, ?_, ?_⟩
  · intro c
    obtain ⟨s', hcall, -, -⟩ := hholds.call c
    exact ⟨_, s', hcall⟩
  · rw [hholds.count_eq, htake, List.length_take]
  · intro hpos
    refine ⟨_, hholds.total hpos, ?_⟩
    have hsome : (∃ pre, pre <+: accepted tr ∧ ¬ T.InRange (sum pre)) ↔
        ¬ EveryPrefix Representable (accepted tr) := by
      simp only [EveryPrefix, Representable, not_forall, exists_prop]
    rw [hsome]
    by_cases hfit : EveryPrefix Representable (accepted tr)
    · simp [totalOf_of_representable hfit, hfit]
    · simp [totalOf_of_not_representable hfit, hfit]
  · intro v s' hs
    obtain ⟨hr, -, -⟩ := hholds.step hs
    have hfull : ¬ s.count < s.samples.len := by
      intro hlt
      rw [hholds.count_eq] at hlt
      simp [answer, hlt] at hr
    rw [Step, Sample.call, Sample.push, if_pos (Nat.le_of_not_lt hfull), pure_bind,
      Checked.pure_inj] at hs
    exact (Prod.mk.inj hs).2.symm

/-- A buffer of three, sorted between two pushes; the total leaves the range and does not come back.
-/
theorem run_describes_i8 : ∃ (samples : Slice IntType.i8.Val) (tr : List (Event .i8))
    (s : Sample .i8), Run Step (new samples) tr s ∧
      (pushed tr).map Subtype.val = [100, 100, -100, 20] ∧
      s.span.map Subtype.val = [100, 100, -100] ∧ Describes samples tr s :=
  have h := Run.of_exec_isSome step_of_move
    (show (exec move (new ⟨fun _ => 0, 3, of_decide_eq_true rfl⟩) [.push (IntType.i8.wrap 100),
      .push (IntType.i8.wrap 100), .percentile (.finite 1), .push (IntType.i8.wrap (-100)),
      .push (IntType.i8.wrap 20), .total]).isSome = true by decide +kernel)
  ⟨_, _, _, h, by decide +kernel, by decide +kernel, run_describes h⟩

/-! ## Totals that have overflowed -/

/-- Once a prefix sum has left the range, the total is the maximum for good. -/
theorem total_of_firstFailure {pre : List T.Val} {seg : List (Event T)}
    (h : Run Step (new samples) tr s) (hpre : FirstFailure Representable (accepted tr) pre)
    (hseg : Run Step s seg s') : s'.total = .ok ⟨⟨T.max, T.inRange_max⟩, true⟩ := by
  obtain ⟨-, hholds, -⟩ := run_holds (h.append hseg)
  have happend : accepted (tr ++ seg) = accepted tr ++ accepted seg := List.filterMap_append
  have hover : ¬ EveryPrefix Representable (accepted (tr ++ seg)) := by
    rw [happend]
    exact (hpre.append _).not_everyPrefix
  have hpos : 0 < s'.count := by
    rw [hholds.count_pos]
    intro hnil
    rw [hnil] at hover
    exact hover (everyPrefix_nil.mpr T.inRange_zero)
  rw [hholds.total hpos, totalOf_of_not_representable hover]

/-- The end of the range on the side of a sum that has left it. -/
def side (T : IntType) (x : Int) : T.Val :=
  if T.max < x then ⟨T.max, T.inRange_max⟩ else ⟨T.lowest, T.inRange_lowest⟩

/-- From `s` on, the total stays at the end of the range where the first prefix sum left it, if one
has. -/
def Saturates (tr : List (Event T)) (s : Sample T) : Prop :=
  ∀ pre, FirstFailure Representable (accepted tr) pre →
    ∀ seg s', Run Step s seg s' → s'.total = .ok ⟨side T (sum pre), true⟩

/-- **The total saturates on the side where it overflowed only if that is above**: a sum that drops
below the range is reported as the maximum too. -/
theorem saturates_iff (h : Run Step (new samples) tr s) :
    Saturates tr s ↔
      ∀ pre, FirstFailure Representable (accepted tr) pre → T.max < sum pre := by
  constructor
  · intro hsat pre hpre
    have htotal := hsat pre hpre [] s .nil
    rw [total_of_firstFailure h hpre .nil] at htotal
    by_contra hle
    rw [side, if_neg hle] at htotal
    have hends : T.max = T.lowest := by simpa using htotal
    have := T.lt_max
    have := T.lowest_nonpos
    omega
  · intro habove pre hpre seg s' hseg
    rw [side, if_pos (habove pre hpre)]
    exact total_of_firstFailure h hpre hseg

theorem saturates_iff_i8 : ∃ (samples : Slice IntType.i8.Val) (tr : List (Event .i8))
    (s : Sample .i8), Run Step (new samples) tr s ∧
      (accepted tr).map Subtype.val = [100, -50, 100, -100] ∧
      (Saturates tr s ↔
        ∀ pre, FirstFailure Representable (accepted tr) pre → IntType.i8.max < sum pre) :=
  have h := Run.of_exec_isSome step_of_move
    (show (exec move (new ⟨fun _ => 0, 4, of_decide_eq_true rfl⟩) [.push (IntType.i8.wrap 100),
      .push (IntType.i8.wrap (-50)), .push (IntType.i8.wrap 100),
      .push (IntType.i8.wrap (-100))]).isSome = true by decide +kernel)
  ⟨_, _, _, h, by decide +kernel, saturates_iff h⟩

/-- Twice `-100` in eight bits is reported as `127`. -/
theorem total_overflows_below : ¬ ∀ (T : IntType) (samples : Slice T.Val) (tr : List (Event T))
    (s : Sample T), Run Step (new samples) tr s → Saturates tr s := by
  intro hall
  let v : IntType.i8.Val := IntType.i8.wrap (-100)
  have h := Run.of_exec_isSome step_of_move
    (show (exec move (new ⟨fun _ => v, 2, of_decide_eq_true rfl⟩) [.push v, .push v]).isSome = true
      by decide +kernel)
  have haccepted : accepted ((exec move (new ⟨fun _ => v, 2, of_decide_eq_true rfl⟩)
      [.push v, .push v]).get (by decide +kernel)).1 = [v] ++ [v] := by decide +kernel
  have hpre : FirstFailure Representable ([v] ++ [v]) ([v] ++ [v]) := by
    apply firstFailure_concat
    · exact everyPrefix_concat.mpr ⟨everyPrefix_nil.mpr IntType.i8.inRange_zero, by decide⟩
    · decide
  rw [← haccepted] at hpre
  have htotal := hall _ _ _ _ h _ hpre [] _ .nil
  rw [total_of_firstFailure h hpre .nil, haccepted] at htotal
  have hends : ⟨IntType.i8.max, IntType.i8.inRange_max⟩ = side .i8 (sum ([v] ++ [v])) := by
    simpa using htotal
  exact absurd hends (by decide)

end Shclog.Sample
