import Mathlib.Logic.Function.Basic
import Mathlib.Order.Nat

/-! # Bounded output

A writer stores one thing after another into cells of which only the first few are its own, and
gives up as soon as something does not fit. `Emits` says that what it has to store is a given list:
it stores all of it where there is room, and gives up where there is not, and the cells beyond its
own stay as they are in any case. Writers that run one after the other emit their lists one after
the other. -/

namespace Shclog.Lib

/-- Cells, and how many of them have been written. -/
structure Out (α : Type) where
  cells : Nat → α
  used : Nat

namespace Out

variable {α : Type}

def push (o : Out α) (a : α) : Out α := ⟨Function.update o.cells o.used a, o.used + 1⟩

def append (o : Out α) (l : List α) : Out α := l.foldl push o

@[simp] theorem append_nil (o : Out α) : o.append [] = o := rfl

@[simp] theorem append_cons (o : Out α) (a : α) (l : List α) :
    o.append (a :: l) = (o.push a).append l := rfl

theorem append_append (o : Out α) (l l' : List α) : o.append (l ++ l') = (o.append l).append l' :=
  List.foldl_append

@[simp] theorem used_append (o : Out α) (l : List α) : (o.append l).used = o.used + l.length := by
  induction l generalizing o with
  | nil => rfl
  | cons a l ih =>
      rw [append_cons, ih, List.length_cons]
      dsimp only [push]
      omega

/-- What has been written. -/
def written (o : Out α) : List α := (List.range o.used).map o.cells

theorem written_push (o : Out α) (a : α) : (o.push a).written = o.written ++ [a] := by
  have hkeep : (List.range o.used).map (Function.update o.cells o.used a) = o.written := by
    apply List.map_congr_left
    intro i hi
    rw [List.mem_range] at hi
    exact Function.update_of_ne hi.ne _ _
  rw [written, push, List.range_succ, List.map_append, hkeep]
  simp

theorem written_append (o : Out α) (l : List α) : (o.append l).written = o.written ++ l := by
  induction l generalizing o with
  | nil => simp
  | cons a l ih =>
      rw [append_cons, ih, written_push, List.append_assoc]
      rfl

/-- The cells beyond stay as they are. -/
theorem cells_append (o : Out α) {l : List α} {i : Nat} (hi : o.used + l.length ≤ i) :
    (o.append l).cells i = o.cells i := by
  induction l generalizing o with
  | nil => rfl
  | cons a l ih =>
      rw [List.length_cons] at hi
      rw [append_cons, ih (o.push a) (by dsimp only [push]; omega)]
      exact Function.update_of_ne (by omega) _ _

end Out

/-- What stores into the cells of `m`, and may give up. -/
abbrev Writer (α ε : Type) (m : Type → Type) := ExceptT ε (StateT (Out α) m)

section Emits

variable {α ε : Type} {m : Type → Type} [Monad m] {cap : Nat} {e : ε} {x y : Writer α ε m Unit}
  {l l' : List α}

/-- `x` emits `l` into the first `cap` cells, or else gives up with `e`. -/
structure Emits (cap : Nat) (e : ε) (x : Writer α ε m Unit) (l : List α) : Prop where
  fits : ∀ o, o.used + l.length ≤ cap → x.run.run o = pure (.ok (), o.append l)
  fails : ∀ o, o.used ≤ cap → cap < o.used + l.length →
    ∃ o', x.run.run o = pure (.error e, o') ∧ ∀ i, cap ≤ i → o'.cells i = o.cells i

namespace Emits

theorem nil : Emits cap e (pure () : Writer α ε m Unit) [] := by
  refine ⟨fun o _ => rfl, ?_⟩
  intro o hle hlt
  exact absurd hle (not_le.mpr hlt)

/-- Where there is room, what has been written goes on with `l`. -/
theorem written (h : Emits cap e x l) (o : Out α) (hfits : o.used + l.length ≤ cap) :
    ∃ o', x.run.run o = pure (.ok (), o') ∧ o'.used = o.used + l.length ∧
      o'.written = o.written ++ l ∧ ∀ i, cap ≤ i → o'.cells i = o.cells i :=
  ⟨_, h.fits o hfits, o.used_append l, o.written_append l,
    fun _ hi => o.cells_append (hfits.trans hi)⟩

variable [LawfulMonad m]

/-- **One after the other.** -/
theorem seq (hx : Emits cap e x l) (hy : Emits cap e y l') :
    Emits cap e (do x; y) (l ++ l') := by
  refine ⟨?_, ?_⟩
  · intro o hfits
    rw [List.length_append] at hfits
    have hrest := hy.fits (o.append l) (by rw [Out.used_append]; omega)
    simp [ExceptT.run_bind, hx.fits o (by omega), hrest, Out.append_append]
  · intro o hle hlt
    rw [List.length_append] at hlt
    by_cases hfits : o.used + l.length ≤ cap
    -- the first has room, and stores nothing beyond it; the second has not
    · obtain ⟨o', hrun, hkeep⟩ := hy.fails (o.append l) (by rw [Out.used_append]; omega)
        (by rw [Out.used_append]; omega)
      refine ⟨o', by simp [ExceptT.run_bind, hx.fits o hfits, hrun], ?_⟩
      intro i hi
      rw [hkeep i hi]
      exact o.cells_append (hfits.trans hi)
    · obtain ⟨o', hrun, hkeep⟩ := hx.fails o hle (by omega)
      exact ⟨o', by simp [ExceptT.run_bind, hrun], hkeep⟩

theorem forM {f : α → Writer α ε m Unit} (hf : ∀ a, Emits cap e (f a) [a]) (l : List α) :
    Emits cap e (l.forM f) l := by
  induction l with
  | nil => exact nil
  | cons a l ih => exact (hf a).seq ih

end Emits

end Emits

end Shclog.Lib
