import Mathlib.Data.List.Basic
import Mathlib.Logic.Function.Basic

/-! # Lists in memory

`Image f a l`: from the address `a` on, there is `l`. The rules are those for a store that is read and
written one place at a time. -/

namespace Shclog.Lib

variable {α : Type*} {f g : Nat → Option α} {a n : Nat} {l m : List α} {x : α}

/-- From `a` on, there is `l`. -/
def Image (f : Nat → Option α) (a : Nat) (l : List α) : Prop :=
  ∀ i x, l[i]? = some x → f (a + i) = some x

namespace Image

theorem nil : Image f a [] := by
  intro i x h
  cases h

theorem append (hl : Image f a l) (hm : Image f (a + l.length) m) : Image f a (l ++ m) := by
  intro i x h
  by_cases hi : i < l.length
  · rw [List.getElem?_append_left hi] at h
    exact hl i x h
  · rw [List.getElem?_append_right (by omega)] at h
    have := hm _ x h
    rwa [show a + l.length + (i - l.length) = a + i by omega] at this

theorem left (h : Image f a (l ++ m)) : Image f a l := by
  intro i x hx
  apply h
  rw [List.getElem?_append_left (List.getElem?_eq_some_iff.mp hx).1]
  exact hx

theorem take (h : Image f a l) (n : Nat) : Image f a (l.take n) := by
  rw [← List.take_append_drop n l] at h
  exact h.left

/-- What is elsewhere does not matter. -/
theorem congr (h : Image f a l) (hfg : ∀ i, a ≤ i → i < a + l.length → g i = f i) :
    Image g a l := by
  intro i x hx
  have hi := (List.getElem?_eq_some_iff.mp hx).1
  rw [hfg (a + i) (by omega) (by omega)]
  exact h i x hx

/-- One more is written. -/
theorem snoc (h : Image f a (l.take n)) (hx : l[n]? = some x) :
    Image (Function.update f (a + n) (some x)) a (l.take (n + 1)) := by
  have hn := (List.getElem?_eq_some_iff.mp hx).1
  rw [List.take_add_one, hx]
  apply append
  · refine h.congr ?_
    intro i _ hi
    rw [List.length_take] at hi
    exact Function.update_of_ne (by omega) ..
  · intro i y hy
    obtain ⟨hi, hxy⟩ := List.getElem?_eq_some_iff.mp hy
    have hi : i = 0 := by simpa using hi
    subst hi
    rw [List.length_take, Nat.min_eq_left (by omega), Nat.add_zero, Function.update_self]
    exact congrArg some hxy

/-- There is nothing else there. -/
theorem eq (h : Image f a l) {i : Nat} (hi : i < l.length) : f (a + i) = l[i]? := by
  rw [List.getElem?_eq_getElem hi]
  exact h i _ (List.getElem?_eq_getElem hi)

end Image

end Shclog.Lib
