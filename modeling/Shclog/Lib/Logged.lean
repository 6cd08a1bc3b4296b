import Mathlib.Tactic.Common

/-! # Computations that leave a record, and may stop

What such a computation has done is a list, also where it stops half-way. What is in the record of a
computation in several parts is in the record of one of them, and that part was come to. -/

namespace Shclog.Lib

/-- What was done, oldest first, and what came of it. -/
structure Logged (ω ε α : Type) where
  record : List ω
  result : Except ε α

namespace Logged

variable {ω ε ε' α β : Type} {x : Logged ω ε α} {f : α → Logged ω ε β} {w : ω} {b : β}

/-- One entry, and nothing comes of it. -/
def tell (w : ω) : Logged ω ε Unit := ⟨[w], .ok ()⟩

def stop (e : ε) : Logged ω ε α := ⟨[], .error e⟩

/-- What stops the computation is turned into something else. -/
def mapStop (g : ε → ε') (x : Logged ω ε α) : Logged ω ε' α := ⟨x.record, x.result.mapError g⟩

def bind (x : Logged ω ε α) (f : α → Logged ω ε β) : Logged ω ε β :=
  match x with
  | ⟨record, .error e⟩ => ⟨record, .error e⟩
  | ⟨record, .ok a⟩ => ⟨record ++ (f a).record, (f a).result⟩

instance : Monad (Logged ω ε) where
  pure a := ⟨[], .ok a⟩
  bind := bind

/-- What is done is done in one of the parts. -/
@[simp] theorem mem_record_bind :
    w ∈ (x >>= f).record ↔ w ∈ x.record ∨ ∃ a, x.result = .ok a ∧ w ∈ (f a).record := by
  obtain ⟨record, e | a⟩ := x
  · show w ∈ record ↔ _
    simp
  · show w ∈ record ++ (f a).record ↔ _
    simp

@[simp] theorem result_bind_ok :
    (x >>= f).result = .ok b ↔ ∃ a, x.result = .ok a ∧ (f a).result = .ok b := by
  obtain ⟨record, e | a⟩ := x
  · show Except.error e = _ ↔ _
    simp
  · show (f a).result = _ ↔ _
    simp

theorem result_bind_error {e : ε} : (x >>= f).result = .error e ↔
    x.result = .error e ∨ ∃ a, x.result = .ok a ∧ (f a).result = .error e := by
  obtain ⟨record, e' | a⟩ := x
  · show Except.error e' = _ ↔ _
    simp
  · show (f a).result = _ ↔ _
    simp

theorem result_bind : (x >>= f).result = x.result.bind fun a => (f a).result := by
  obtain ⟨record, e | a⟩ := x
  · rfl
  · rfl

theorem record_bind_ok {a : α} (h : x.result = .ok a) :
    (x >>= f).record = x.record ++ (f a).record := by
  obtain ⟨record, e | a'⟩ := x
  · cases h
  · cases h
    rfl

theorem record_bind_error {e : ε} (h : x.result = .error e) : (x >>= f).record = x.record := by
  obtain ⟨record, e' | a⟩ := x
  · rfl
  · cases h

@[simp] theorem not_mem_record_pure (a : α) : w ∉ (pure a : Logged ω ε α).record :=
  List.not_mem_nil

@[simp] theorem result_pure {a a' : α} :
    (pure a : Logged ω ε α).result = .ok a' ↔ a = a' := by
  show Except.ok a = Except.ok a' ↔ _
  rw [Except.ok.injEq]

@[simp] theorem not_mem_record_stop (e : ε) : w ∉ (stop e : Logged ω ε α).record :=
  List.not_mem_nil

@[simp] theorem result_stop {e : ε} {a : α} : (stop e : Logged ω ε α).result ≠ .ok a := by
  simp [stop]

@[simp] theorem mem_record_tell {w' : ω} :
    w ∈ (tell w' : Logged ω ε Unit).record ↔ w = w' := List.mem_singleton

@[simp] theorem result_tell (w : ω) : (tell w : Logged ω ε Unit).result = .ok () := rfl

@[simp] theorem record_mapStop (g : ε → ε') : (x.mapStop g).record = x.record := rfl

@[simp] theorem result_mapStop {g : ε → ε'} {a : α} :
    (x.mapStop g).result = .ok a ↔ x.result = .ok a := by
  obtain ⟨record, e | a'⟩ := x <;> simp [mapStop, Except.mapError]

end Logged

end Shclog.Lib
