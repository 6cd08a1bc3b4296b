import Mathlib.Tactic.Common

/-! # Computations that may go wrong, and may lose exactness

A computation of machine arithmetic ends in one of two ways: it faults, or it yields a value. A
value may be less than was asked for: an intermediate result did not fit and was reduced to one that
does. `Checked` keeps both apart, and remembers along the way whether that has happened. A
computation that is `pure a` has neither faulted nor lost anything, which is what most clients want
to say; the rules below take such an equation apart along the binds. -/

namespace Shclog.Lib

/-- A fault, or a value and whether anything was lost on the way to it. -/
inductive Checked (ε α : Type) where
  | fault (e : ε)
  | value (a : α) (lossy : Bool)
  deriving DecidableEq

namespace Checked

variable {ε α β γ : Type}

/-- What comes of a computation before which something may have been lost. -/
def after (lossy : Bool) : Checked ε α → Checked ε α
  | fault e => fault e
  | value a lossy' => value a (lossy || lossy')

@[simp] theorem after_false (x : Checked ε α) : x.after false = x := by
  cases x <;> rfl

theorem after_after (l l' : Bool) (x : Checked ε α) :
    (x.after l').after l = x.after (l || l') := by
  cases x <;> simp [after, Bool.or_assoc]

def bind : Checked ε α → (α → Checked ε β) → Checked ε β
  | fault e, _ => fault e
  | value a lossy, f => (f a).after lossy

instance : Monad (Checked ε) where
  pure a := value a false
  bind := bind

/-- `a`, though it is not what was asked for. -/
def lossy (a : α) : Checked ε α := value a true

/-- Goes on if the condition holds. -/
def assert (p : Prop) [Decidable p] (e : ε) : Checked ε Unit := if p then pure () else fault e

/-- What a computation yields, whether or not anything was lost. -/
def getD : Checked ε α → α → α
  | fault _, b => b
  | value a _, _ => a

theorem pure_def (a : α) : (pure a : Checked ε α) = value a false := rfl

theorem value_bind (a : α) (l : Bool) (f : α → Checked ε β) :
    value a l >>= f = (f a).after l := rfl

instance : LawfulMonad (Checked ε) := LawfulMonad.mk' (Checked ε)
  (by
    intro α x
    cases x with
    | fault e => rfl
    | value a l => exact congrArg (value a) (Bool.or_false l))
  (by
    intro α β a f
    exact after_false (f a))
  (by
    intro α β γ x f g
    cases x with
    | fault e => rfl
    | value a l =>
        rw [value_bind, value_bind]
        cases f a with
        | fault e => rfl
        | value b l' => exact (after_after l l' (g b)).symm)

theorem pure_inj {a b : α} : (pure a : Checked ε α) = pure b ↔ a = b := by
  simp [pure_def]

@[simp] theorem fault_ne_pure (e : ε) (a : α) : (fault e : Checked ε α) ≠ pure a := by
  simp [pure_def]

@[simp] theorem lossy_ne_pure (a b : α) : (lossy a : Checked ε α) ≠ pure b := by
  simp [lossy, pure_def]

@[simp] theorem assert_true {p : Prop} [Decidable p] (e : ε) (h : p) :
    assert p e = pure () := if_pos h

/-- **A computation in two parts yields a value when both do**, and has lost what either has. -/
theorem bind_eq_value_iff {x : Checked ε α} {f : α → Checked ε β} {b : β} {lossy : Bool} :
    x >>= f = value b lossy ↔
      ∃ a l l', x = value a l ∧ f a = value b l' ∧ lossy = (l || l') := by
  constructor
  · intro h
    cases x with
    | fault e => cases h
    | value a l =>
        rw [value_bind] at h
        cases hf : f a with
        | fault e =>
            rw [hf] at h
            cases h
        | value b' l' =>
            rw [hf] at h
            injection h with hb hl
            exact ⟨a, l, l', rfl, by rw [hf, hb], hl.symm⟩
  · rintro ⟨a, l, l', rfl, hf, rfl⟩
    rw [value_bind, hf]
    rfl

/-- **A computation in two parts goes right when both do.** -/
theorem bind_eq_pure_iff {x : Checked ε α} {f : α → Checked ε β} {b : β} :
    x >>= f = pure b ↔ ∃ a, x = pure a ∧ f a = pure b := by
  rw [pure_def, bind_eq_value_iff]
  constructor
  · rintro ⟨a, l, l', hx, hf, hl⟩
    obtain ⟨rfl, rfl⟩ := Bool.or_eq_false_iff.mp hl.symm
    exact ⟨a, hx, hf⟩
  · rintro ⟨a, hx, hf⟩
    exact ⟨a, false, false, hx, hf, rfl⟩

theorem pure_eq_value_iff {a b : α} {lossy : Bool} :
    (pure a : Checked ε α) = value b lossy ↔ b = a ∧ lossy = false := by
  rw [pure_def, value.injEq]
  exact and_congr eq_comm eq_comm

@[simp] theorem assert_eq_value_iff {p : Prop} [Decidable p] {e : ε} {u : Unit} {lossy : Bool} :
    assert p e = value u lossy ↔ p ∧ lossy = false := by
  unfold assert
  split
  · next h =>
      rw [pure_def, value.injEq, and_iff_right rfl, and_iff_right h]
      exact eq_comm
  · next h => simp [h]

theorem assert_eq_pure_iff {p : Prop} [Decidable p] {e : ε} {u : Unit} :
    assert p e = pure u ↔ p := by
  unfold assert
  split
  · next h => simp [h]
  · next h => simp [h]

end Checked

end Shclog.Lib
