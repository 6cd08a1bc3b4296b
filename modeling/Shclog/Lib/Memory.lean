import Mathlib.Algebra.Group.Nat.Defs
import Mathlib.Tactic.Common
import Shclog.Lib.Image

/-! # Loads and stores

A memory is what is at each address, if anything is. A load or a store of several places goes wrong
if at one of them nothing is. Where things lie apart from each other, and inside the memory, a store
to one of them goes well and leaves the others as they are. -/

namespace Shclog.Lib

variable {α : Type*}

/-- What is at each address. -/
abbrev Memory (α : Type*) := Nat → Option α

namespace Memory

/-- The `n` places from `a` on, if they are there. -/
def load (f : Memory α) (a : Nat) : Nat → Option (List α)
  | 0 => some []
  | n + 1 => do
    let x ← f a
    let l ← load f (a + 1) n
    some (x :: l)

/-- Puts `l` from `a` on, if there are places for it. -/
def store (f : Memory α) (a : Nat) (l : List α) : Option (Memory α) :=
  if ∀ i < l.length, (f (a + i)).isSome then
    some fun x => if a ≤ x ∧ x < a + l.length then l[x - a]? else f x
  else none

end Memory

/-- `l` with `m` in place of what is from `n` on. -/
def splice (l : List α) (n : Nat) (m : List α) : List α := l.take n ++ (m ++ l.drop (n + m.length))

theorem splice_all {l m : List α} (h : m.length = l.length) : splice l 0 m = m := by
  simp [splice, h]

theorem getElem?_splice {l m : List α} {n : Nat} (h : n + m.length ≤ l.length) (i : Nat) :
    (splice l n m)[i]? = if n ≤ i ∧ i < n + m.length then m[i - n]? else l[i]? := by
  have htake : (l.take n).length = n := by
    rw [List.length_take]
    omega
  unfold splice
  by_cases h₁ : i < n
  · rw [List.getElem?_append_left (by omega), List.getElem?_take_of_lt h₁, if_neg (by omega)]
  · rw [List.getElem?_append_right (by omega), htake]
    by_cases h₂ : i < n + m.length
    · rw [List.getElem?_append_left (by omega), if_pos ⟨by omega, h₂⟩]
    · rw [List.getElem?_append_right (by omega), if_neg (by omega), List.getElem?_drop]
      congr 1
      omega

namespace Image

variable {f g : Memory α} {a n : Nat} {l m : List α} {x : α}

theorem cons (h : Image f a (x :: l)) : f a = some x ∧ Image f (a + 1) l := by
  refine ⟨h 0 x rfl, ?_⟩
  intro i y hy
  have := h (i + 1) y hy
  rwa [show a + (i + 1) = a + 1 + i by omega] at this

theorem load (h : Image f a l) : f.load a l.length = some l := by
  induction l generalizing a with
  | nil => rfl
  | cons x l ih =>
      obtain ⟨hx, hl⟩ := h.cons
      simp [Memory.load, hx, ih hl]

/-- A store goes well where something is, and changes nothing else. -/
theorem store (h : Image f a l) (hin : n + m.length ≤ l.length) :
    ∃ g, f.store (a + n) m = some g ∧ Image g a (splice l n m) ∧
      ∀ x, x < a + n ∨ a + n + m.length ≤ x → g x = f x := by
  have hthere : ∀ i < m.length, (f (a + n + i)).isSome := by
    intro i hi
    rw [show a + n + i = a + (n + i) by omega, h.eq (by omega),
      List.getElem?_eq_getElem (by omega)]
    rfl
  refine ⟨_, if_pos hthere, ?_, ?_⟩
  · intro i x hx
    dsimp only
    rw [getElem?_splice hin] at hx
    by_cases hi : n ≤ i ∧ i < n + m.length
    · rw [if_pos hi] at hx
      rw [if_pos (by omega)]
      rwa [show a + i - (a + n) = i - n by omega]
    · rw [if_neg hi] at hx
      rw [if_neg (by omega)]
      exact h i x hx
  · intro x hx
    exact if_neg (by omega)

end Image

/-! ## Things that lie apart -/

section Placed

variable {ι : Type*} {Valid : ι → Prop} {addr size : ι → Nat} {content content' : ι → List α}
  {f : Memory α} {i : ι} {n : Nat} {m : List α}

/-- No two of them overlap. -/
def Apart (Valid : ι → Prop) (addr size : ι → Nat) : Prop :=
  ∀ i j, Valid i → Valid j → i ≠ j → addr i + size i ≤ addr j ∨ addr j + size j ≤ addr i

/-- Each of them is where it belongs. -/
def Placed (Valid : ι → Prop) (addr : ι → Nat) (f : Memory α) (content : ι → List α) : Prop :=
  ∀ i, Valid i → Image f (addr i) (content i)

/-- **A store to one of them** leaves the others alone. -/
theorem Placed.store (h : Placed Valid addr f content) (hapart : Apart Valid addr size)
    (hsize : ∀ i, (content i).length = size i) (hi : Valid i) (hin : n + m.length ≤ size i)
    (hself : content' i = splice (content i) n m)
    (hother : ∀ j, j ≠ i → content' j = content j) :
    ∃ g, f.store (addr i + n) m = some g ∧ Placed Valid addr g content' := by
  rw [← hsize i] at hin
  obtain ⟨g, hstore, himage, hframe⟩ := (h i hi).store hin
  refine ⟨g, hstore, ?_⟩
  intro j hj
  by_cases hji : j = i
  · subst hji
    rwa [hself]
  · rw [hother j hji]
    apply (h j hj).congr
    intro x hlow hhigh
    rw [hsize j] at hhigh
    apply hframe
    rw [hsize i] at hin
    rcases hapart i j hi hj (Ne.symm hji) with hle | hle <;> omega

/-- Things that lie inside of others, which are apart, are apart if they are where they are in the
same one. -/
theorem Apart.inside {κ : Type*} {Valid' : κ → Prop} {addr' size' : κ → Nat} {part : ι → κ}
    {within : ι → Nat} (hparts : Apart Valid' addr' size') (hvalid : ∀ i, Valid i → Valid' (part i))
    (haddr : ∀ i, Valid i → addr i = addr' (part i) + within i)
    (hin : ∀ i, Valid i → within i + size i ≤ size' (part i))
    (hsame : ∀ i j, Valid i → Valid j → i ≠ j → part i = part j →
      within i + size i ≤ within j ∨ within j + size j ≤ within i) : Apart Valid addr size := by
  intro i j hi hj hij
  have hin_i := hin i hi
  have hin_j := hin j hj
  rw [haddr i hi, haddr j hj]
  by_cases hpart : part i = part j
  · have := hsame i j hi hj hij hpart
    rw [hpart]
    omega
  · have := hparts (part i) (part j) (hvalid i hi) (hvalid j hj) hpart
    omega

end Placed

/-! ## Operations

A concrete state stands for an abstract one. What is done to the concrete one may go wrong; it does
what it is meant to do if it goes well on whatever stands for the abstract state before, and leaves
what stands for the one after. -/

section Does

universe u

variable {σ β γ : Type u} {τ : Type*} {R : σ → τ → Prop} {t t' t'' : τ} {b : β} {c : γ}

def Does (R : σ → τ → Prop) (x : StateT σ Option β) (t : τ) (b : β) (t' : τ) : Prop :=
  ∀ s, R s t → ∃ s', x s = some (b, s') ∧ R s' t'

theorem Does.pure : Does R (pure b) t b t := by
  intro s hs
  exact ⟨s, rfl, hs⟩

theorem Does.bind {x : StateT σ Option β} {k : β → StateT σ Option γ} (hx : Does R x t b t')
    (hk : Does R (k b) t' c t'') : Does R (x >>= k) t c t'' := by
  intro s hs
  obtain ⟨s', he, hs'⟩ := hx s hs
  obtain ⟨s'', he', hs''⟩ := hk s' hs'
  refine ⟨s'', ?_, hs''⟩
  show (x s >>= fun p => k p.1 p.2) = some (c, s'')
  rw [he]
  exact he'

end Does

/-! ## Numbers, the least significant byte first -/

section Numbers

variable {n v : Nat} {l : List (BitVec 8)}

def leBytes : Nat → Nat → List (BitVec 8)
  | 0, _ => []
  | n + 1, v => BitVec.ofNat 8 v :: leBytes n (v / 256)

def ofLeBytes : List (BitVec 8) → Nat
  | [] => 0
  | b :: l => b.toNat + 256 * ofLeBytes l

@[simp] theorem length_leBytes (n v : Nat) : (leBytes n v).length = n := by
  induction n generalizing v with
  | zero => rfl
  | succ n ih => simp [leBytes, ih]

theorem ofLeBytes_leBytes (h : v < 256 ^ n) : ofLeBytes (leBytes n v) = v := by
  induction n generalizing v with
  | zero =>
      rw [Nat.pow_zero] at h
      rw [leBytes, ofLeBytes]
      omega
  | succ n ih =>
      rw [Nat.pow_succ] at h
      rw [leBytes, ofLeBytes, ih (Nat.div_lt_of_lt_mul (by omega)), BitVec.toNat_ofNat]
      omega

end Numbers

end Shclog.Lib
