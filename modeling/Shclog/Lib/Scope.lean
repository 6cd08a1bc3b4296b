import Mathlib.Tactic.Common
import Shclog.Lib.Run

/-! # Scopes

A computation acquires resources for objects of its scope. When it is left, the objects are
destroyed and give back what they hold, the last one first; that happens where the computation
stops, too, but not if what stops it is the end of the process. A computation that is put together
from such parts is `Tidy`: it holds what it has acquired, and if it stops, it gives back just what
it holds. -/

namespace Shclog.Lib

/-- What is done with a resource. -/
inductive Act (ρ : Type) where
  | acquire (r : ρ)
  | release (r : ρ)
  deriving DecidableEq

namespace Act

variable {ρ : Type}

def acquired? : Act ρ → Option ρ
  | acquire r => some r
  | release _ => none

/-- What is acquired, in order. -/
def acquired (acts : List (Act ρ)) : List ρ := acts.filterMap acquired?

@[simp] theorem acquired_append (acts acts' : List (Act ρ)) :
    acquired (acts ++ acts') = acquired acts ++ acquired acts' := List.filterMap_append

@[simp] theorem acquired_map_acquire (l : List ρ) : acquired (l.map acquire) = l := by
  rw [acquired, List.filterMap_map]
  exact List.filterMap_some

@[simp] theorem acquired_map_release (l : List ρ) : acquired (l.map release) = [] := by
  rw [acquired, List.filterMap_map, List.filterMap_eq_nil_iff]
  intro r _
  rfl

end Act

/-- From what is held, the last first, to what is done and to what is held then. -/
def Scoped (ρ ε α : Type) := List ρ → List (Act ρ) × Except ε (α × List ρ)

namespace Scoped

variable {ρ ε α β : Type}

/-- An object of the scope has the resource from now on. -/
def own (r : ρ) : Scoped ρ ε Unit := fun held => ([.acquire r], .ok ((), r :: held))

/-- The scope is left. Nothing is destroyed if the process is `quits`. -/
def stop (quits : ε → Bool) (e : ε) : Scoped ρ ε α :=
  fun held => (if quits e then [] else held.map .release, .error e)

/-- What a function returns that keeps nothing; its error is passed on. -/
def ret (quits : ε → Bool) : Except ε α → Scoped ρ ε α
  | .ok a => fun held => ([], .ok (a, held))
  | .error e => stop quits e

def bind (x : Scoped ρ ε α) (f : α → Scoped ρ ε β) : Scoped ρ ε β := fun held =>
  match x held with
  | (acts, .error e) => (acts, .error e)
  | (acts, .ok (a, held')) => (acts ++ (f a held').1, (f a held').2)

instance : Monad (Scoped ρ ε) where
  pure a := fun held => ([], .ok (a, held))
  bind := bind

variable {x : Scoped ρ ε α} {f : α → Scoped ρ ε β} {held held' : List ρ} {acts : List (Act ρ)}
  {quits : ε → Bool} {r : ρ} {a : α} {b : β} {e : ε}

theorem bind_ok_iff : (x >>= f) held = (acts, .ok (b, held')) ↔ ∃ acts₁ acts₂ a m,
    x held = (acts₁, .ok (a, m)) ∧ f a m = (acts₂, .ok (b, held')) ∧ acts = acts₁ ++ acts₂ := by
  change bind x f held = _ ↔ _
  unfold bind
  rcases x held with ⟨acts₁, e | ⟨a, m⟩⟩
  · simp
  · simp only [Prod.mk.injEq, Except.ok.injEq]
    constructor
    · rintro ⟨rfl, hres⟩
      exact ⟨acts₁, (f a m).1, a, m, ⟨rfl, rfl, rfl⟩, Prod.ext rfl hres, rfl⟩
    · rintro ⟨_, acts₂, _, _, ⟨rfl, rfl, rfl⟩, hf, rfl⟩
      rw [hf]
      exact ⟨rfl, rfl⟩

/-- Where it is known what the first part does, the second one does the rest. -/
theorem rest_of_bind_ok {acts₁ : List (Act ρ)} {m : List ρ} (hx : x held = (acts₁, .ok (a, m)))
    (h : (x >>= f) held = (acts, .ok (b, held'))) : ∃ acts₂, f a m = (acts₂, .ok (b, held')) := by
  obtain ⟨_, acts₂, _, _, hx', hf, -⟩ := bind_ok_iff.mp h
  rw [hx] at hx'
  cases hx'
  exact ⟨acts₂, hf⟩

/-- What a function returns that keeps nothing is all that there is to see of it. -/
theorem ret_bind_ok_iff {res : Except ε α} :
    (ret quits res >>= f) held = (acts, .ok (b, held')) ↔
      ∃ a, res = .ok a ∧ f a held = (acts, .ok (b, held')) := by
  cases res with
  | error e =>
      rw [bind_ok_iff]
      simp [ret, stop]
  | ok a =>
      rw [bind_ok_iff]
      simp [ret]

theorem bind_error_iff : (x >>= f) held = (acts, .error e) ↔ x held = (acts, .error e) ∨
    ∃ acts₁ acts₂ a m, x held = (acts₁, .ok (a, m)) ∧ f a m = (acts₂, .error e) ∧
      acts = acts₁ ++ acts₂ := by
  change bind x f held = _ ↔ _
  unfold bind
  rcases x held with ⟨acts₁, e' | ⟨a, m⟩⟩
  · simp
  · simp only [Prod.mk.injEq, reduceCtorEq, and_false, false_or, Except.ok.injEq]
    constructor
    · rintro ⟨rfl, hres⟩
      exact ⟨acts₁, (f a m).1, a, m, ⟨rfl, rfl, rfl⟩, Prod.ext rfl hres, rfl⟩
    · rintro ⟨_, acts₂, _, _, ⟨rfl, rfl, rfl⟩, hf, rfl⟩
      rw [hf]
      exact ⟨rfl, rfl⟩

/-! ## Tidiness -/

/-- What is acquired is held in the end, or is given back in reverse order with all that was held
before. -/
structure Tidy (quits : ε → Bool) (x : Scoped ρ ε α) : Prop where
  value : ∀ held acts a held', x held = (acts, .ok (a, held')) →
    ∃ new, held' = new ++ held ∧ acts = new.reverse.map .acquire
  error : ∀ held acts e, x held = (acts, .error e) → ∃ new,
    acts = new.reverse.map .acquire ++ if quits e then [] else (new ++ held).map .release

theorem Tidy.pure (a : α) : Tidy quits (pure a : Scoped ρ ε α) := by
  refine ⟨?_, ?_⟩
  · intro held acts a' held' h
    cases h
    exact ⟨[], rfl, rfl⟩
  · intro held acts e h
    cases h

theorem Tidy.own (r : ρ) : Tidy quits (own r : Scoped ρ ε Unit) := by
  refine ⟨?_, ?_⟩
  · intro held acts a held' hx
    cases hx
    exact ⟨[r], rfl, rfl⟩
  · intro held acts e hx
    cases hx

theorem Tidy.stop (e : ε) : Tidy quits (stop quits e : Scoped ρ ε α) := by
  refine ⟨?_, ?_⟩
  · intro held acts a held' h
    cases h
  · intro held acts e' h
    cases h
    exact ⟨[], rfl⟩

theorem Tidy.ret (x : Except ε α) : Tidy quits (ret quits x : Scoped ρ ε α) := by
  cases x with
  | ok a => exact .pure a
  | error e => exact .stop e

/-- **Two parts** that are tidy make a tidy whole. -/
theorem Tidy.bind (hx : Tidy quits x) (hf : ∀ a, Tidy quits (f a)) : Tidy quits (x >>= f) := by
  refine ⟨?_, ?_⟩
  · intro held acts b held' h
    obtain ⟨acts₁, acts₂, a, m, h₁, h₂, rfl⟩ := bind_ok_iff.mp h
    obtain ⟨new₁, rfl, rfl⟩ := hx.value _ _ _ _ h₁
    obtain ⟨new₂, rfl, rfl⟩ := (hf a).value _ _ _ _ h₂
    refine ⟨new₂ ++ new₁, (List.append_assoc ..).symm, ?_⟩
    rw [List.reverse_append, List.map_append]
  · intro held acts e h
    -- the first part stops, or the second one, which then gives back for both
    rcases bind_error_iff.mp h with h₁ | ⟨acts₁, acts₂, a, m, h₁, h₂, rfl⟩
    · exact hx.error _ _ _ h₁
    · obtain ⟨new₁, rfl, rfl⟩ := hx.value _ _ _ _ h₁
      obtain ⟨new₂, rfl⟩ := (hf a).error _ _ _ h₂
      refine ⟨new₂ ++ new₁, ?_⟩
      simp only [List.reverse_append, List.map_append, List.append_assoc]

theorem Tidy.ite {c : Prop} [Decidable c] {y : Scoped ρ ε α} (hx : Tidy quits x)
    (hy : Tidy quits y) : Tidy quits (if c then x else y) := by
  split
  · exact hx
  · exact hy

/-! ## What comes of it -/

/-- Whatever is held, this is what is acquired, and what is returned. -/
def Agrees (x : Scoped ρ ε α) (got : List ρ) (res : Except ε α) : Prop :=
  ∀ held, Act.acquired (x held).1 = got ∧ (x held).2.map Prod.fst = res

theorem Agrees.pure (a : α) : Agrees (pure a : Scoped ρ ε α) [] (.ok a) := fun _ => ⟨rfl, rfl⟩

theorem Agrees.own : Agrees (own r : Scoped ρ ε Unit) [r] (.ok ()) := fun _ => ⟨rfl, rfl⟩

theorem Agrees.stop : Agrees (stop quits e : Scoped ρ ε α) [] (.error e) := by
  intro held
  refine ⟨?_, rfl⟩
  unfold Scoped.stop
  dsimp only
  split
  · rfl
  · exact Act.acquired_map_release held

theorem Agrees.ret (res : Except ε α) : Agrees (ret quits res : Scoped ρ ε α) [] res := by
  cases res with
  | ok a => exact .pure a
  | error e => exact .stop

/-- Two parts, the first of which returns a value. -/
theorem Agrees.bind_ok {got got' : List ρ} {res : Except ε β} (hx : Agrees x got (.ok a))
    (hf : Agrees (f a) got' res) : Agrees (x >>= f) (got ++ got') res := by
  intro held
  obtain ⟨hgot, hres⟩ := hx held
  show Act.acquired (Scoped.bind x f held).1 = _ ∧ (Scoped.bind x f held).2.map Prod.fst = _
  unfold Scoped.bind
  rcases hheld : x held with ⟨acts, e | ⟨a', m⟩⟩
  · rw [hheld] at hres
    cases hres
  · rw [hheld] at hgot hres
    cases hres
    obtain ⟨hgot', hres'⟩ := hf m
    exact ⟨by rw [Act.acquired_append, hgot', hgot], hres'⟩

/-- The first part stops, and with it the whole. -/
theorem Agrees.bind_error {got : List ρ} (hx : Agrees x got (.error e)) :
    Agrees (x >>= f) got (.error e) := by
  intro held
  obtain ⟨hgot, hres⟩ := hx held
  show Act.acquired (Scoped.bind x f held).1 = _ ∧ (Scoped.bind x f held).2.map Prod.fst = _
  unfold Scoped.bind
  rcases hheld : x held with ⟨acts, e' | ⟨a', m⟩⟩
  · rw [hheld] at hgot hres
    cases hres
    exact ⟨hgot, rfl⟩
  · rw [hheld] at hres
    cases hres

end Scoped

end Shclog.Lib
