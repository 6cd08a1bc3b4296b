import Mathlib.Algebra.BigOperators.Group.Finset.Basic
import Mathlib.Data.Fintype.Card

/-! # Counting threads by what they are doing

`tally f c` is how many of finitely many threads are in a state that `c` picks out. A step moves
one thread, so it changes a tally by at most one; `tally_update` says by how much. -/

namespace Shclog.Lib

variable {P α : Type*} [Fintype P] [DecidableEq P] {f : P → α} {c : α → Bool} {p : P}

def tally (f : P → α) (c : α → Bool) : Nat := (Finset.univ.filter fun p => c (f p)).card

omit [DecidableEq P] in
theorem tally_le : tally f c ≤ Fintype.card P :=
  (Finset.card_filter_le _ _).trans_eq Finset.card_univ

omit [DecidableEq P] in
theorem tally_eq_zero (h : ∀ p, c (f p) = false) : tally f c = 0 := by
  rw [tally, Finset.card_eq_zero, Finset.filter_eq_empty_iff]
  intro p _
  simp [h p]

/-- Moving one thread takes it out of the tally it was in and puts it into the one it enters. -/
theorem tally_update (f : P → α) (c : α → Bool) (p : P) (a : α) :
    tally (Function.update f p a) c + (c (f p)).toNat = tally f c + (c a).toNat := by
  have hrest : (Finset.univ.filter fun q => c (Function.update f p a q)).erase p =
      (Finset.univ.filter fun q => c (f q)).erase p := by
    ext q
    simp only [Finset.mem_erase, Finset.mem_filter, Finset.mem_univ, true_and]
    constructor
    · rintro ⟨hq, h⟩
      exact ⟨hq, by rwa [Function.update_of_ne hq] at h⟩
    · rintro ⟨hq, h⟩
      exact ⟨hq, by rwa [Function.update_of_ne hq]⟩
  have hcard : ∀ g : P → α, tally g c =
      ((Finset.univ.filter fun q => c (g q)).erase p).card + (c (g p)).toNat := by
    intro g
    cases hp : c (g p) with
    | false => simp [tally, Finset.erase_eq_of_notMem, hp]
    | true =>
        have hmem : p ∈ Finset.univ.filter fun q => c (g q) := by simp [hp]
        simpa [tally] using (Finset.card_erase_add_one hmem).symm
  rw [hcard (Function.update f p a), hcard f, hrest, Function.update_self]
  omega

/-- A thread that moves between states the count does not see leaves the tally alone. -/
theorem tally_update_same {a : α} (hp : c (f p) = false) (ha : c a = false) :
    tally (Function.update f p a) c = tally f c := by
  have := tally_update f c p a
  simpa [hp, ha] using this

theorem tally_update_enter {a : α} (hp : c (f p) = false) (ha : c a = true) :
    tally (Function.update f p a) c = tally f c + 1 := by
  have := tally_update f c p a
  simpa [hp, ha] using this

theorem tally_update_leave {a : α} (hp : c (f p) = true) (ha : c a = false) :
    tally (Function.update f p a) c + 1 = tally f c := by
  have := tally_update f c p a
  simpa [hp, ha] using this

/-! ## Weighing

What is left to be done by all of them, if `w` says how much it is for one. -/

def load (f : P → α) (w : α → Nat) : Nat := ∑ p, w (f p)

variable {w : α → Nat}

/-- Moving one thread changes the load by what it weighed and what it weighs now. -/
theorem load_update (f : P → α) (w : α → Nat) (p : P) (a : α) :
    load (Function.update f p a) w + w (f p) = load f w + w a := by
  have hrest : ∑ q ∈ Finset.univ.erase p, w (Function.update f p a q) =
      ∑ q ∈ Finset.univ.erase p, w (f q) := by
    apply Finset.sum_congr rfl
    intro q hq
    rw [Function.update_of_ne (Finset.ne_of_mem_erase hq)]
  have hsplit : ∀ g : P → α, load g w = (∑ q ∈ Finset.univ.erase p, w (g q)) + w (g p) := by
    intro g
    exact (Finset.sum_erase_add _ _ (Finset.mem_univ p)).symm
  rw [hsplit (Function.update f p a), hsplit f, hrest, Function.update_self]
  omega

omit [DecidableEq P] in
theorem load_eq_zero_iff : load f w = 0 ↔ ∀ p, w (f p) = 0 := by
  rw [load, Finset.sum_eq_zero_iff]
  simp

end Shclog.Lib
