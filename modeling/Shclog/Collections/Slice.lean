import Mathlib.Logic.Function.Basic
import Shclog.Cast

/-! # `Slice`

A pointer with a length, as `slice.hpp` has it. What the model keeps of the memory behind the
pointer is one cell for each offset; those from the length on are not the slice's. -/

namespace Shclog

structure Slice (α : Type) where
  data : Nat → α
  len : Nat
  len_lt : len < 2 ^ 64

namespace Slice

variable {α : Type}

/-- `MakeError`. -/
inductive MakeError where
  | outOfMemory
  deriving DecidableEq

/-- `slice[i]`, read. -/
def get (s : Slice α) (i : Nat) : Eval α := do
  Lib.Checked.assert (i < s.len) .indexOutOfBounds
  pure (s.data i)

/-- `slice[i] = v`. -/
def set (s : Slice α) (i : Nat) (v : α) : Eval (Slice α) := do
  Lib.Checked.assert (i < s.len) .indexOutOfBounds
  pure { s with data := Function.update s.data i v }

/-- The first `n` elements. -/
def toList (s : Slice α) (n : Nat) : List α := (List.range n).map s.data

/-- The elements of `l` are stored from the start on. -/
def storeList (s : Slice α) (l : List α) : Slice α :=
  { s with data := fun i => (l[i]?).getD (s.data i) }

theorem get_of_lt {s : Slice α} {i : Nat} (h : i < s.len) : s.get i = pure (s.data i) := by
  simp [get, h]

theorem set_of_lt {s : Slice α} {i : Nat} (h : i < s.len) (v : α) :
    s.set i v = pure { s with data := Function.update s.data i v } := by
  simp [set, h]

@[simp] theorem length_toList (s : Slice α) (n : Nat) : (s.toList n).length = n := by
  simp [toList]

theorem getElem?_toList {s : Slice α} {i n : Nat} (h : i < n) :
    (s.toList n)[i]? = some (s.data i) := by
  simp [toList, h]

/-- A store right after the first `n` elements. -/
theorem toList_update (s : Slice α) (n : Nat) (v : α) :
    toList { s with data := Function.update s.data n v } (n + 1) = s.toList n ++ [v] := by
  have hkeep : (List.range n).map (Function.update s.data n v) = (List.range n).map s.data := by
    apply List.map_congr_left
    intro i hi
    rw [List.mem_range] at hi
    exact Function.update_of_ne hi.ne _ _
  simp [toList, List.range_succ, hkeep]

theorem toList_storeList (s : Slice α) (l : List α) : (s.storeList l).toList l.length = l := by
  apply List.ext_getElem?
  intro i
  by_cases hi : i < l.length
  · rw [getElem?_toList hi]
    simp [storeList, hi]
  · simp [hi]

end Slice

end Shclog
