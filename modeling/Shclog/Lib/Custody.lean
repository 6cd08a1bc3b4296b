import Shclog.Lib.Run

/-! # Custody of a resource

A resource is opened and closed, and while it is open somebody may take it into custody. Who has it
in custody either closes it or gives it back, and nobody else closes it in the meantime. What
happens to one resource is a run of this protocol, if everybody keeps to it, and then each time it
was taken it was closed or given back once. -/

namespace Shclog.Lib

inductive Custody where
  /-- Open, and not taken since it was opened. -/
  | idle
  | held
  /-- Given back, and still open. -/
  | released
  | closed
  deriving DecidableEq

namespace Custody

inductive Event where
  | opened
  | adopted
  /-- By whoever has it in custody. -/
  | closed
  | released
  /-- By somebody else, while nobody has it. -/
  | closedElsewhere
  deriving DecidableEq

/-- What ends a custody. -/
def Event.Ends : Event → Prop
  | .closed => True
  | .released => True
  | _ => False

inductive Step : Custody → Event → Custody → Prop
  | opened : Step .closed .opened .idle
  | adopted {c : Custody} : c = .idle ∨ c = .released → Step c .adopted .held
  | closed : Step .held .closed .closed
  | released : Step .held .released .released
  | closedElsewhere {c : Custody} : c = .idle ∨ c = .released → Step c .closedElsewhere .closed

variable {c₀ c : Custody} {e : Event} {tr tr₁ tr₂ : List Event}

theorem Step.ends_iff {c' : Custody} (h : Step c e c') : e.Ends ↔ c = .held := by
  cases h with
  | opened => simp [Event.Ends]
  | adopted hc => rcases hc with rfl | rfl <;> simp [Event.Ends]
  | closed => simp [Event.Ends]
  | released => simp [Event.Ends]
  | closedElsewhere hc => rcases hc with rfl | rfl <;> simp [Event.Ends]

theorem Step.adopted_iff {c' : Custody} (h : Step c e c') : e = .adopted ↔ c' = .held := by
  cases h <;> simp

/-- **A custody ends once**: if what is taken is no longer held, the next thing that happened to it
is that it was closed or given back. -/
theorem ended (h : Run Step c₀ (tr₁ ++ .adopted :: tr₂) c) :
    tr₂ = [] ∧ c = .held ∨ ∃ e tr₃, tr₂ = e :: tr₃ ∧ e.Ends := by
  obtain ⟨m, -, h⟩ := h.split
  obtain ⟨m', hs, h⟩ := h.uncons
  obtain rfl := hs.adopted_iff.mp rfl
  cases tr₂ with
  | nil => exact .inl ⟨rfl, Run.nil_iff.mp h⟩
  | cons e tr₃ =>
      obtain ⟨_, hs', -⟩ := h.uncons
      exact .inr ⟨e, tr₃, rfl, hs'.ends_iff.mpr rfl⟩

/-- **Nothing ends but a custody**: right before it was closed or given back, it was taken. -/
theorem begun (h₀ : c₀ ≠ .held) (h : Run Step c₀ (tr₁ ++ e :: tr₂) c) (he : e.Ends) :
    ∃ tr₀, tr₁ = tr₀ ++ [.adopted] := by
  obtain ⟨m, hbefore, h⟩ := h.split
  obtain ⟨m', hs, -⟩ := h.uncons
  obtain rfl := hs.ends_iff.mp he
  cases tr₁ using List.reverseRecOn with
  | nil => exact absurd (Run.nil_iff.mp hbefore).symm h₀
  | append_singleton tr₀ e₀ =>
      obtain ⟨_, -, hlast⟩ := hbefore.split
      obtain rfl := (Run.single_iff.mp hlast).adopted_iff.mpr rfl
      exact ⟨tr₀, rfl⟩

/-- What was taken since it was last opened, and is open, is held or has been given back. -/
theorem held_or_released (h : Run Step c₀ (tr₁ ++ .adopted :: tr₂) c) (hopen : c ≠ .closed)
    (hno : .opened ∉ tr₂) : c = .held ∨ .released ∈ tr₂ := by
  obtain ⟨m, -, h⟩ := h.split
  obtain ⟨m', hs, h⟩ := h.uncons
  obtain rfl := hs.adopted_iff.mp rfl
  cases tr₂ with
  | nil => exact .inl (Run.nil_iff.mp h)
  | cons e tr₃ =>
      obtain ⟨m, hs', hrest⟩ := h.uncons
      cases hs' with
      | adopted hc => rcases hc with hc | hc <;> cases hc
      | closedElsewhere hc => rcases hc with hc | hc <;> cases hc
      | released => exact .inr List.mem_cons_self
      | closed =>
          -- nothing but an opening follows on a close
          cases tr₃ with
          | nil => exact absurd (Run.nil_iff.mp hrest) hopen
          | cons e' tr₄ =>
              obtain ⟨_, hs'', -⟩ := hrest.uncons
              cases hs'' with
              | opened => exact absurd (by simp) hno
              | adopted hc => rcases hc with hc | hc <;> cases hc
              | closedElsewhere hc => rcases hc with hc | hc <;> cases hc

end Custody

end Shclog.Lib
