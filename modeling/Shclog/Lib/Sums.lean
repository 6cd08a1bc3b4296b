import Mathlib.Algebra.Order.Ring.Int
import Mathlib.Data.List.Infix
import Mathlib.Data.List.Perm.Subperm
import Mathlib.Algebra.BigOperators.Group.List.Basic

/-! # Sums taken bit by bit

What matters of a sum that is formed in bounded arithmetic is not only what it comes to but what the
sums on the way to it are. For a running total these are the sums of prefixes; when nothing is known
about the order, they are the sums of any of the entries, and those lie between the sum of all
negative entries and that of all positive ones. -/

namespace Shclog.Lib

/-! ## Prefixes -/

section Prefixes

variable {α : Type*} {P : List α → Prop} {l pre : List α} {a : α}

/-- `P` holds of every prefix of `l`, of `l` itself too. -/
def EveryPrefix (P : List α → Prop) (l : List α) : Prop := ∀ pre, pre <+: l → P pre

/-- `pre` is the shortest prefix of `l` of which `P` fails. -/
structure FirstFailure (P : List α → Prop) (l pre : List α) : Prop where
  le : pre <+: l
  fails : ¬ P pre
  before : ∀ pre', pre' <+: pre → pre' ≠ pre → P pre'

theorem everyPrefix_concat : EveryPrefix P (l ++ [a]) ↔ EveryPrefix P l ∧ P (l ++ [a]) := by
  simp only [EveryPrefix, List.prefix_concat_iff]
  constructor
  · intro h
    exact ⟨fun pre hpre => h pre (Or.inr hpre), h _ (Or.inl rfl)⟩
  · rintro ⟨h, hlast⟩ pre (heq | hpre)
    · subst heq
      exact hlast
    · exact h pre hpre

theorem everyPrefix_nil : EveryPrefix P [] ↔ P [] := by
  simp [EveryPrefix]

/-- All goes well until the last entry. -/
theorem firstFailure_concat (hl : EveryPrefix P l) (hlast : ¬ P (l ++ [a])) :
    FirstFailure P (l ++ [a]) (l ++ [a]) := by
  refine ⟨List.prefix_rfl, hlast, ?_⟩
  intro pre hpre hne
  exact hl pre ((List.prefix_concat_iff.mp hpre).resolve_left hne)

namespace FirstFailure

theorem not_everyPrefix (h : FirstFailure P l pre) : ¬ EveryPrefix P l :=
  fun hl => h.fails (hl pre h.le)

/-- It stays the first however the list goes on. -/
theorem append (h : FirstFailure P l pre) (l' : List α) : FirstFailure P (l ++ l') pre :=
  ⟨h.le.trans (List.prefix_append l l'), h.fails, h.before⟩

end FirstFailure

end Prefixes

/-! ## Sums of some of the entries -/

section Parts

variable {l l' : List Int}

/-- The sum of the entries above zero. -/
def sumPos (l : List Int) : Int := (l.filter (0 < ·)).sum

/-- The sum of the entries below zero. -/
def sumNeg (l : List Int) : Int := (l.filter (· < 0)).sum

theorem sumPos_cons (x : Int) (l : List Int) : sumPos (x :: l) = max x 0 + sumPos l := by
  by_cases hx : 0 < x
  · simp [sumPos, hx, hx.le]
  · simp [sumPos, hx, not_lt.mp hx]

theorem sumNeg_cons (x : Int) (l : List Int) : sumNeg (x :: l) = min x 0 + sumNeg l := by
  by_cases hx : x < 0
  · simp [sumNeg, hx, hx.le]
  · simp [sumNeg, hx, not_lt.mp hx]

/-- What is not above zero adds nothing to what is below. -/
theorem sum_filter_not_pos (l : List Int) : (l.filter (¬ 0 < ·)).sum = sumNeg l := by
  induction l with
  | nil => rfl
  | cons x l ih =>
      rw [sumNeg_cons, ← ih]
      by_cases hx : 0 < x
      · simp [hx, hx.le]
      · simp [not_lt.mp hx]

/-- **The sum of some of the entries** lies between those of the negative and of the positive ones.
-/
theorem sum_mem_of_subperm (h : l'.Subperm l) : sumNeg l ≤ l'.sum ∧ l'.sum ≤ sumPos l := by
  obtain ⟨l₁, hperm, hsub⟩ := h
  rw [← hperm.sum_eq]
  clear hperm
  induction hsub with
  | slnil => simp [sumPos, sumNeg]
  | cons x _ ih =>
      rw [sumPos_cons, sumNeg_cons]
      omega
  | cons_cons x _ ih =>
      rw [sumPos_cons, sumNeg_cons, List.sum_cons]
      omega

end Parts

/-! ## Rounded sums -/

section Rounded

/-- What is cut off of the entries is not gained by the sum. -/
theorem sum_map_mul_ediv_le {d : Int} (hd : 0 < d) (m : Int) (l : List Int) :
    (l.map fun x => x * m / d).sum ≤ l.sum * m / d := by
  induction l with
  | nil => simp
  | cons x l ih =>
      rw [List.map_cons, List.sum_cons, List.sum_cons, Int.add_mul]
      calc x * m / d + (l.map fun x => x * m / d).sum
          ≤ x * m / d + l.sum * m / d := Int.add_le_add_left ih _
        _ ≤ (x * m + l.sum * m) / d := Int.ediv_add_ediv_le_add_ediv hd

end Rounded

end Shclog.Lib
