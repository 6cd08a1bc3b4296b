import Shclog.Lib.Run
import Shclog.Lib.Window

/-! # A ring between one writer and one reader

A ring is cells addressed by a masked counter; what it holds is the cells of consecutive counts.
One side appends at the back, the other takes from the front, and neither ever moves a cell. The
rules below say what each of these does to the contents, and `Run.flow` adds them up: over a run,
what was taken and what is still inside are together what was put in. -/

namespace Shclog.Lib

variable {α : Type*} {w k m n d : Nat} {mask c t h : BitVec w} {cells cells' : BitVec w → α}

/-! ## Distances between counters -/

theorem add_toNat_sub (h t : BitVec w) : h + BitVec.ofNat w (t - h).toNat = t := by
  rw [BitVec.ofNat_toNat, BitVec.setWidth_eq, BitVec.add_comm]
  exact BitVec.sub_add_cancel t h

theorem eq_iff_toNat_sub : h = t ↔ (t - h).toNat = 0 := by
  refine ⟨fun he => ?_, fun hz => ?_⟩
  · rw [he, BitVec.sub_self]
    rfl
  · have := add_toNat_sub h t
    rw [hz] at this
    simpa using this

/-- The reader moves on. -/
theorem toNat_sub_front (hn : n ≤ (t - h).toNat) :
    (t - (h + BitVec.ofNat w n)).toNat = (t - h).toNat - n := by
  have hlt : n < 2 ^ w := Nat.lt_of_le_of_lt hn (t - h).isLt
  have hword : (BitVec.ofNat w n).toNat = n := by
    rw [BitVec.toNat_ofNat, Nat.mod_eq_of_lt hlt]
  have hle : BitVec.ofNat w n ≤ t - h := by
    rw [BitVec.le_def, hword]
    exact hn
  rw [← BitVec.sub_sub, BitVec.toNat_sub_of_le hle, hword]

/-- The writer moves on. -/
theorem toNat_sub_back (hn : (t - h).toNat + n < 2 ^ w) :
    (t + BitVec.ofNat w n - h).toNat = (t - h).toNat + n := by
  rw [BitVec.add_sub_comm, BitVec.toNat_add, BitVec.toNat_ofNat, Nat.add_mod_mod, Nat.mod_eq_of_lt hn]

/-! ## Contents -/

/-- What the cells of `n` consecutive counts hold, the first of the counts being `c`. -/
def ringFrom (mask : BitVec w) (cells : BitVec w → α) (c : BitVec w) : Nat → List α
  | 0 => []
  | n + 1 => cells (c &&& mask) :: ringFrom mask cells (c + 1) n

@[simp] theorem length_ringFrom : (ringFrom mask cells c n).length = n := by
  induction n generalizing c with
  | zero => rfl
  | succ n ih => rw [ringFrom, List.length_cons, ih]

theorem ringFrom_append :
    ringFrom mask cells c (m + n) =
      ringFrom mask cells c m ++ ringFrom mask cells (c + BitVec.ofNat w m) n := by
  induction m generalizing c with
  | zero => simp [ringFrom]
  | succ m ih =>
      rw [Nat.succ_add, ringFrom, ringFrom, ih, List.cons_append, BitVec.add_assoc,
        BitVec.add_comm 1, word_succ]

theorem ringFrom_succ :
    ringFrom mask cells c (n + 1) =
      ringFrom mask cells c n ++ [cells ((c + BitVec.ofNat w n) &&& mask)] :=
  ringFrom_append

/-- Taking from the front leaves the rest. -/
theorem drop_ringFrom (hm : m ≤ n) :
    (ringFrom mask cells c n).drop m = ringFrom mask cells (c + BitVec.ofNat w m) (n - m) := by
  obtain ⟨j, rfl⟩ := Nat.exists_eq_add_of_le hm
  rw [ringFrom_append, List.drop_left' length_ringFrom, Nat.add_sub_cancel_left]

theorem getElem?_ringFrom (hd : d < n) :
    (ringFrom mask cells c n)[d]? = some (cells ((c + BitVec.ofNat w d) &&& mask)) := by
  obtain ⟨j, rfl⟩ := Nat.exists_eq_add_of_lt hd
  rw [Nat.add_assoc, ringFrom_append, List.getElem?_append_right (by simp), length_ringFrom,
    Nat.sub_self]
  rfl

/-- Contents are the same where the cells are. -/
theorem ringFrom_congr (hc : ∀ d < n, cells' ((c + BitVec.ofNat w d) &&& mask) =
    cells ((c + BitVec.ofNat w d) &&& mask)) :
    ringFrom mask cells' c n = ringFrom mask cells c n := by
  induction n with
  | zero => rfl
  | succ n ih =>
      rw [ringFrom_succ, ringFrom_succ, hc n (Nat.lt_succ_self n),
        ih fun d hd => hc d (Nat.lt_succ_of_lt hd)]

/-! ## Writing -/

section Write

variable (hmask : mask.toNat + 1 = 2 ^ k)

include hmask

theorem and_mask_eq_slot : (c + BitVec.ofNat w d) &&& mask = slot w k (c.toNat + d) := by
  have hm : mask = BitVec.ofNat w (2 ^ k - 1) := by
    rw [← hmask, Nat.add_sub_cancel, BitVec.ofNat_toNat, BitVec.setWidth_eq]
  rw [slot, BitVec.ofNat_add, BitVec.ofNat_toNat, BitVec.setWidth_eq, hm]

theorem le_width_of_mask : k ≤ w := by
  have hle : 2 ^ k ≤ 2 ^ w := hmask ▸ mask.isLt
  exact (Nat.pow_le_pow_iff_right (by omega)).mp hle

/-- Two counts less than a lap apart name different cells. -/
theorem and_mask_ne (hmd : m < d) (hd : d < 2 ^ k) :
    (c + BitVec.ofNat w m) &&& mask ≠ (c + BitVec.ofNat w d) &&& mask := by
  rw [and_mask_eq_slot hmask, and_mask_eq_slot hmask]
  intro he
  have := slot_inj (le_width_of_mask hmask) (by omega) (by omega) he
  omega

/-- Writing a cell behind the last one leaves the contents alone. -/
theorem ringFrom_update {a : α} (hn : n ≤ d) (hd : d < 2 ^ k) :
    ringFrom mask (Function.update cells ((c + BitVec.ofNat w d) &&& mask) a) c n =
      ringFrom mask cells c n := by
  apply ringFrom_congr
  intro i hi
  exact Function.update_of_ne (and_mask_ne hmask (by omega) hd) _ _

/-- Writing the cell behind the last one appends to the contents, if there is a free cell. -/
theorem ringFrom_push {a : α} (hn : n < 2 ^ k) :
    ringFrom mask (Function.update cells ((c + BitVec.ofNat w n) &&& mask) a) c (n + 1) =
      ringFrom mask cells c n ++ [a] := by
  rw [ringFrom_succ, ringFrom_update hmask (Nat.le_refl n) hn, Function.update_self]

end Write

/-! ## Runs -/

/-- **Conservation.** If every step takes from the front of what is inside and puts at its back,
what a run took and what it left inside are what was inside before and what the run put in. -/
theorem Run.flow {σ ε : Type*} {step : σ → ε → σ → Prop} {s₀ s : σ} {tr : List ε} {I : σ → Prop}
    {inside : σ → List α} {put? take? : ε → Option α} (h₀ : I s₀)
    (hI : ∀ s e s', I s → step s e s' → I s')
    (hstep : ∀ s e s', I s → step s e s' →
      (take? e).toList ++ inside s' = inside s ++ (put? e).toList)
    (h : Run step s₀ tr s) :
    tr.filterMap take? ++ inside s = inside s₀ ++ tr.filterMap put? := by
  refine (h.invariant (I := fun tr s => I s ∧
    tr.filterMap take? ++ inside s = inside s₀ ++ tr.filterMap put?) ⟨h₀, by simp⟩ ?_).2
  intro tr s e s' _ ⟨hs, hflow⟩ he
  refine ⟨hI s e s' hs he, ?_⟩
  rw [Run.filterMap_snoc, Run.filterMap_snoc, List.append_assoc, hstep s e s' hs he,
    ← List.append_assoc, hflow, List.append_assoc]

end Shclog.Lib
