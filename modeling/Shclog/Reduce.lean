import Shclog.Lib.Sums
import Shclog.Cast

/-! # Generalized sums

`std::reduce` with `std::plus<>` may add any two things it has: elements of the range, the initial
value, and what comes of adding them. `std::plus<>` adds in the common type of its operands, and an
implementation may keep what it has so far in a variable of the result type. A `Grouping` is one way
to do all that. -/

namespace Shclog

open Lib IntType

/-- A value of some integer type. -/
abbrev Num := (T : IntType) × T.Val

namespace Num

/-- `std::plus<>{}(a, b)`. -/
def plus (a b : Num) : Eval Num := do
  let C := common a.1 b.1
  let x ← Eval.convert C a.2.val
  let y ← Eval.convert C b.2.val
  let z ← Eval.arith C (x.val + y.val)
  pure ⟨C, z⟩

/-- `C v = a;`. -/
def store (C : IntType) (a : Num) : Eval Num := do
  let v ← Eval.convert C a.2.val
  pure ⟨C, v⟩

theorem plus_eq_pure_iff {a b c : Num} :
    plus a b = pure c ↔
      c.1 = common a.1 b.1 ∧ (common a.1 b.1).InRange a.2.val ∧ (common a.1 b.1).InRange b.2.val ∧
        c.2.val = a.2.val + b.2.val := by
  simp only [plus, Checked.bind_eq_pure_iff, Checked.pure_inj, Eval.convert_eq_pure_iff,
    Eval.arith_eq_pure_iff]
  constructor
  · rintro ⟨x, hx, y, hy, z, hz, rfl⟩
    exact ⟨rfl, hx ▸ x.property, hy ▸ y.property, by rw [hz, hx, hy]⟩
  · obtain ⟨C, z⟩ := c
    rintro ⟨hC, hx, hy, hz⟩
    dsimp only at hC
    subst hC
    exact ⟨⟨_, hx⟩, rfl, ⟨_, hy⟩, rfl, z, hz, rfl⟩

theorem store_eq_pure_iff {C : IntType} {a c : Num} :
    store C a = pure c ↔ c.1 = C ∧ c.2.val = a.2.val := by
  simp only [store, Checked.bind_eq_pure_iff, Checked.pure_inj, Eval.convert_eq_pure_iff]
  constructor
  · rintro ⟨v, hv, rfl⟩
    exact ⟨rfl, hv⟩
  · obtain ⟨D, v⟩ := c
    rintro ⟨hD, hv⟩
    dsimp only at hD
    subst hD
    exact ⟨v, hv, rfl⟩

end Num

/-- What is added to what, for a range of elements of `T`. -/
inductive Grouping (T : IntType) where
  | init
  | elem (x : T.Val)
  | plus (g h : Grouping T)
  | store (g : Grouping T)

namespace Grouping

variable {T C : IntType} {g h : Grouping T} {a : Num}

/-- The elements that are added. -/
def elems : Grouping T → List T.Val
  | init => []
  | elem x => [x]
  | plus g h => g.elems ++ h.elems
  | store g => g.elems

/-- How often the initial value is. -/
def inits : Grouping T → Nat
  | init => 1
  | elem _ => 0
  | plus g h => g.inits + h.inits
  | store g => g.inits

/-- Every element is added once, and so is the initial value. -/
structure Covers (g : Grouping T) (l : List T.Val) : Prop where
  elems : g.elems.Perm l
  inits : g.inits = 1

/-- The sum from `C{}`, with variables of type `C`. -/
def eval (C : IntType) : Grouping T → Eval Num
  | init => pure ⟨C, 0⟩
  | elem x => pure ⟨T, x⟩
  | plus g h => do
    let a ← eval C g
    let b ← eval C h
    a.plus b
  | store g => do
    let a ← eval C g
    a.store C

/-- The exact sum. -/
def sum (g : Grouping T) : Int := (g.elems.map Subtype.val).sum

theorem sum_plus (g h : Grouping T) : (plus g h).sum = g.sum + h.sum := by
  simp [sum, elems]

theorem eval_plus_eq_pure_iff :
    (plus g h).eval C = pure a ↔
      ∃ b, g.eval C = pure b ∧ ∃ c, h.eval C = pure c ∧ b.plus c = pure a := by
  simp only [eval, Checked.bind_eq_pure_iff]

theorem eval_store_eq_pure_iff :
    (store g).eval C = pure a ↔ ∃ b, g.eval C = pure b ∧ b.store C = pure a := by
  simp only [eval, Checked.bind_eq_pure_iff]

/-- A sum that loses nothing is the sum. -/
theorem sum_of_eval (he : g.eval C = pure a) : a.2.val = g.sum := by
  induction g generalizing a with
  | init =>
      cases Checked.pure_inj.mp he
      rfl
  | elem x =>
      cases Checked.pure_inj.mp he
      simp [sum, elems]
  | plus g h ihg ihh =>
      obtain ⟨b, hb, c, hc, hplus⟩ := eval_plus_eq_pure_iff.mp he
      rw [(Num.plus_eq_pure_iff.mp hplus).2.2.2, ihg hb, ihh hc, sum_plus]
  | store g ih =>
      obtain ⟨b, hb, hstore⟩ := eval_store_eq_pure_iff.mp he
      rw [(Num.store_eq_pure_iff.mp hstore).2, ih hb]
      rfl

/-! ## The types on the way -/

/-- The types of what is added. -/
def Occurs (T C A : IntType) : Prop := A = T ∨ A = T.promote ∨ A = C

instance (T C A : IntType) : Decidable (Occurs T C A) := inferInstanceAs (Decidable (_ ∨ _))

/-- Two of them are added as promoted elements or as results. -/
theorem common_cases {A B : IntType} (hC : Widens T C) (hA : Occurs T C A) (hB : Occurs T C B) :
    common A B = T.promote ∨ common A B = C := by
  have hall : ∀ A ∈ [T, T.promote, C], ∀ B ∈ [T, T.promote, C],
      common A B = T.promote ∨ common A B = C := by
    revert hC
    cases T <;> cases C <;> decide
  exact hall A (by simpa [Occurs] using hA) B (by simpa [Occurs] using hB)

/-- Where the sum of any of the elements fits, nothing is lost. -/
theorem exists_eval {l : List T.Val} (hC : Widens T C) (hg : g.elems.Subperm l)
    (hfit : ∀ l' : List T.Val, l'.Subperm l →
      T.promote.InRange (l'.map Subtype.val).sum ∧ C.InRange (l'.map Subtype.val).sum) :
    ∃ a, g.eval C = pure a ∧ Occurs T C a.1 := by
  induction g with
  | init => exact ⟨_, rfl, Or.inr (Or.inr rfl)⟩
  | elem x => exact ⟨_, rfl, Or.inl rfl⟩
  | plus g h ihg ihh =>
      have hsubg : g.elems.Subperm l := (List.sublist_append_left _ _).subperm.trans hg
      have hsubh : h.elems.Subperm l := (List.sublist_append_right _ _).subperm.trans hg
      obtain ⟨a, ha, hoccA⟩ := ihg hsubg
      obtain ⟨b, hb, hoccB⟩ := ihh hsubh
      -- whichever type the two are added in, it has room for the sum of any of the elements
      have hin : ∀ l' : List T.Val, l'.Subperm l →
          (common a.1 b.1).InRange (l'.map Subtype.val).sum := by
        intro l' hl'
        rcases common_cases hC hoccA hoccB with hcommon | hcommon
        · rw [hcommon]
          exact (hfit l' hl').1
        · rw [hcommon]
          exact (hfit l' hl').2
      have hval : (plus g h).sum = a.2.val + b.2.val := by
        rw [sum_plus, sum_of_eval ha, sum_of_eval hb]
      refine ⟨⟨common a.1 b.1, ⟨a.2.val + b.2.val, hval ▸ hin _ hg⟩⟩, ?_, ?_⟩
      · refine eval_plus_eq_pure_iff.mpr ⟨a, ha, b, hb, Num.plus_eq_pure_iff.mpr ⟨rfl, ?_, ?_, rfl⟩⟩
        · rw [sum_of_eval ha]
          exact hin _ hsubg
        · rw [sum_of_eval hb]
          exact hin _ hsubh
      · exact Or.inr (common_cases hC hoccA hoccB)
  | store g ih =>
      obtain ⟨a, ha, -⟩ := ih hg
      have hval : C.InRange a.2.val := by
        rw [sum_of_eval ha]
        exact (hfit _ hg).2
      exact ⟨⟨C, ⟨a.2.val, hval⟩⟩,
        eval_store_eq_pure_iff.mpr ⟨a, ha, Num.store_eq_pure_iff.mpr ⟨rfl, rfl⟩⟩,
        Or.inr (Or.inr rfl)⟩

/-- A block of four, as libstdc++ adds it to what it has. -/
def block (g : Grouping T) (a b c d : T.Val) : Grouping T :=
  store (plus g (store (plus (store (plus (elem a) (elem b))) (store (plus (elem c) (elem d))))))

/-! ## Some first -/

/-- The elements `x :: xs`, from the left. -/
def fromLeft (x : T.Val) (xs : List T.Val) : Grouping T :=
  xs.foldl (fun g y => plus g (elem y)) (elem x)

/-- The elements of a list are added up in a variable of their own, and that is added to the rest.
-/
def also (g : Grouping T) : List T.Val → Grouping T
  | [] => g
  | x :: xs => plus g (store (fromLeft x xs))

theorem fromLeft_concat (x y : T.Val) (xs : List T.Val) :
    fromLeft x (xs ++ [y]) = plus (fromLeft x xs) (elem y) := by
  simp [fromLeft]

theorem elems_fromLeft (x : T.Val) (xs : List T.Val) : (fromLeft x xs).elems = x :: xs := by
  induction xs using List.reverseRecOn with
  | nil => rfl
  | append_singleton xs y ih =>
      rw [fromLeft_concat, elems, ih]
      rfl

theorem inits_fromLeft (x : T.Val) (xs : List T.Val) : (fromLeft x xs).inits = 0 := by
  induction xs using List.reverseRecOn with
  | nil => rfl
  | append_singleton xs y ih =>
      rw [fromLeft_concat, inits, ih]
      rfl

theorem elems_also (g : Grouping T) (l : List T.Val) : (g.also l).elems = g.elems ++ l := by
  cases l with
  | nil => exact (List.append_nil _).symm
  | cons x xs => simp [also, elems, elems_fromLeft]

theorem inits_also (g : Grouping T) (l : List T.Val) : (g.also l).inits = g.inits := by
  cases l with
  | nil => rfl
  | cons x xs => simp [also, inits, inits_fromLeft]

/-- Elements are added to elements as promoted elements. -/
theorem eval_fromLeft {x : T.Val} {xs : List T.Val} (he : (fromLeft x xs).eval C = pure a) :
    a.1 = T ∨ a.1 = T.promote := by
  induction xs using List.reverseRecOn generalizing a with
  | nil =>
      cases Checked.pure_inj.mp he
      exact Or.inl rfl
  | append_singleton xs y ih =>
      rw [fromLeft_concat, eval_plus_eq_pure_iff] at he
      obtain ⟨b, hb, c, hc, hplus⟩ := he
      cases Checked.pure_inj.mp hc
      right
      rw [(Num.plus_eq_pure_iff.mp hplus).1]
      have hcommon : common T T = T.promote ∧ common T.promote T = T.promote := by
        cases T <;> decide
      rcases ih hb with hT | hT
      · rw [hT, hcommon.1]
      · rw [hT, hcommon.2]

/-- Nothing is lost only if the sum of those elements fits. -/
theorem eval_also {l : List T.Val} (he : (g.also l).eval C = pure a) :
    (∃ b, g.eval C = pure b) ∧ T.promote.InRange (l.map Subtype.val).sum ∧
      C.InRange (l.map Subtype.val).sum := by
  cases l with
  | nil => exact ⟨⟨a, he⟩, inRange_zero _, inRange_zero _⟩
  | cons x xs =>
      obtain ⟨b, hb, c, hc, -⟩ := eval_plus_eq_pure_iff.mp he
      obtain ⟨d, hd, hstore⟩ := eval_store_eq_pure_iff.mp hc
      have hval : d.2.val = ((x :: xs).map Subtype.val).sum := by
        rw [sum_of_eval hd, sum, elems_fromLeft]
      obtain ⟨hC, hcd⟩ := Num.store_eq_pure_iff.mp hstore
      have htype := eval_fromLeft hd
      obtain ⟨A, v⟩ := d
      obtain ⟨B, w⟩ := c
      dsimp only at hval hC hcd htype
      subst hC
      rw [← hval]
      -- the sum was a value of the promoted type first, and then of `C`
      refine ⟨⟨b, hb⟩, ?_, ?_⟩
      · rcases htype with hA | hA
        · subst hA
          exact v.property.promote
        · subst hA
          exact v.property
      · rw [← hcd]
        exact w.property

/-- First the positive elements, then the others. -/
def bySign (l : List T.Val) : Grouping T :=
  (init.also (l.filter (0 < ·.val))).also (l.filter (¬ 0 < ·.val))

theorem bySign_covers (l : List T.Val) : (bySign l).Covers l := by
  refine ⟨?_, ?_⟩
  · rw [bySign, elems_also, elems_also, elems, List.nil_append]
    simpa only [decide_not] using List.filter_append_perm (fun x : T.Val => decide (0 < x.val)) l
  · rw [bySign, inits_also, inits_also, inits]

theorem eval_bySign {l : List T.Val} (he : (bySign l).eval C = pure a) :
    (T.promote.InRange (sumPos (l.map Subtype.val)) ∧ C.InRange (sumPos (l.map Subtype.val))) ∧
      T.promote.InRange (sumNeg (l.map Subtype.val)) ∧ C.InRange (sumNeg (l.map Subtype.val)) := by
  obtain ⟨⟨b, hb⟩, hneg⟩ := eval_also he
  obtain ⟨-, hpos⟩ := eval_also hb
  have hsumPos : ((l.filter (0 < ·.val)).map Subtype.val).sum = sumPos (l.map Subtype.val) := by
    rw [sumPos, List.filter_map]
    rfl
  have hsumNeg : ((l.filter (¬ 0 < ·.val)).map Subtype.val).sum = sumNeg (l.map Subtype.val) := by
    rw [← sum_filter_not_pos, List.filter_map]
    rfl
  rw [hsumPos] at hpos
  rw [hsumNeg] at hneg
  exact ⟨hpos, hneg⟩

end Grouping

end Shclog
