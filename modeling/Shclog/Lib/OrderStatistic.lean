import Mathlib.Data.List.Sort
import Mathlib.Order.Bounds.Basic
import Mathlib.Order.MinMax

/-! # Extremes and ranks of a list

The least and the greatest entry of a list, kept up to date entry by entry or read off once the list
is sorted. How a list is sorted, and what order it came in, makes no difference to its ranks. -/

namespace Shclog.Lib

variable {α : Type*} [LinearOrder α] {l l' : List α} {a top : α}

/-! ## Running extremes -/

theorem foldl_min_le (l : List α) (top : α) :
    l.foldl min top ≤ top ∧ ∀ x ∈ l, l.foldl min top ≤ x := by
  induction l generalizing top with
  | nil => simp
  | cons y l ih =>
      obtain ⟨htop, hl⟩ := ih (min top y)
      rw [le_min_iff] at htop
      simpa [List.foldl_cons] using ⟨htop.1, htop.2, hl⟩

theorem foldl_min_mem (l : List α) (top : α) : l.foldl min top = top ∨ l.foldl min top ∈ l := by
  induction l generalizing top with
  | nil => simp
  | cons y l ih =>
      rw [List.foldl_cons]
      rcases ih (min top y) with heq | hmem
      · rw [heq]
        apply (min_choice top y).imp_right
        intro h
        rw [h]
        exact List.mem_cons_self
      · exact Or.inr (List.mem_cons_of_mem _ hmem)

/-- **The running minimum**, which starts at something that nothing exceeds. -/
theorem isLeast_foldl_min (hne : l ≠ []) (htop : ∀ x ∈ l, x ≤ top) :
    IsLeast {x | x ∈ l} (l.foldl min top) := by
  obtain ⟨-, hle⟩ := foldl_min_le l top
  refine ⟨?_, fun x hx => hle x hx⟩
  rcases foldl_min_mem l top with heq | hmem
  · obtain ⟨x, hx⟩ := List.exists_mem_of_ne_nil l hne
    have hxt : x = l.foldl min top := le_antisymm ((htop x hx).trans_eq heq.symm) (hle x hx)
    rwa [← hxt]
  · exact hmem

/-- **The running maximum.** -/
theorem isGreatest_foldl_max {bot : α} (hne : l ≠ []) (hbot : ∀ x ∈ l, bot ≤ x) :
    IsGreatest {x | x ∈ l} (l.foldl max bot) :=
  isLeast_foldl_min (α := αᵒᵈ) hne hbot

/-! ## Ranks -/

/-- The entry of rank `i` in ascending order, the least one having rank zero. -/
def ranked (l : List α) (i : Nat) : Option α := (l.insertionSort (· ≤ ·))[i]?

/-- A list that is sorted, however that has come about, is sorted like any other of its entries. -/
theorem eq_insertionSort (hl : l.Pairwise (· ≤ ·)) (hp : l.Perm l') :
    l = l'.insertionSort (· ≤ ·) :=
  (hp.trans (List.perm_insertionSort (· ≤ ·) l').symm).eq_of_pairwise' hl
    (List.pairwise_insertionSort _ l')

theorem exists_ranked {i : Nat} (h : i < l.length) : ∃ a, ranked l i = some a :=
  ⟨_, List.getElem?_eq_getElem (by rwa [List.length_insertionSort])⟩

/-- What has a higher rank is no smaller. -/
theorem ranked_mono {i j : Nat} {b : α} (hij : i ≤ j) (ha : ranked l i = some a)
    (hb : ranked l j = some b) : a ≤ b := by
  obtain ⟨hi, rfl⟩ := List.getElem?_eq_some_iff.mp ha
  obtain ⟨hj, rfl⟩ := List.getElem?_eq_some_iff.mp hb
  rcases hij.lt_or_eq with hlt | rfl
  · exact List.pairwise_iff_getElem.mp (List.pairwise_insertionSort _ l) i j hi hj hlt
  · exact le_rfl

/-- Every entry has a rank. -/
theorem exists_rank (ha : a ∈ l) : ∃ i < l.length, ranked l i = some a := by
  rw [← (List.perm_insertionSort (· ≤ ·) l).mem_iff] at ha
  obtain ⟨i, hi, hia⟩ := List.mem_iff_getElem.mp ha
  rw [List.length_insertionSort] at hi
  exact ⟨i, hi, List.getElem?_eq_some_iff.mpr ⟨_, hia⟩⟩

theorem mem_of_ranked {i : Nat} (ha : ranked l i = some a) : a ∈ l :=
  (List.perm_insertionSort (· ≤ ·) l).mem_iff.mp (List.mem_of_getElem? ha)

/-- **The least entry has the lowest rank.** -/
theorem ranked_zero (ha : IsLeast {x | x ∈ l} a) : ranked l 0 = some a := by
  obtain ⟨i, hi, hrank⟩ := exists_rank ha.1
  obtain ⟨b, hb⟩ := exists_ranked (Nat.zero_lt_of_lt hi)
  rw [hb, le_antisymm (ranked_mono (Nat.zero_le i) hb hrank) (ha.2 (mem_of_ranked hb))]

/-- **The greatest entry has the highest.** -/
theorem ranked_last (ha : IsGreatest {x | x ∈ l} a) : ranked l (l.length - 1) = some a := by
  obtain ⟨i, hi, hrank⟩ := exists_rank ha.1
  obtain ⟨b, hb⟩ := exists_ranked (Nat.sub_one_lt_of_lt hi)
  rw [hb, le_antisymm (ha.2 (mem_of_ranked hb)) (ranked_mono (Nat.le_sub_one_of_lt hi) hrank hb)]

end Shclog.Lib
