import Mathlib.Data.List.Induction
import Mathlib.Logic.Function.Basic

/-! # Runs of a labelled transition system

A system is a relation `step : σ → ε → σ → Prop`: from this state, doing this, to that state.
A `Run` is a finite sequence of steps from a fixed start, together with what was done along the
way. Two rules are all a client needs: `Run.invariant` (what every step keeps holds after every
run) and `Run.simulate` (a system whose steps are matched by a more abstract one has, label for
label, only runs of the abstract one). -/

namespace Shclog.Lib

variable {σ ε : Type*} {step : σ → ε → σ → Prop} {s₀ s s' : σ} {tr tr₁ tr₂ : List ε}

/-- `Run step s₀ tr s`: doing the labels `tr`, oldest first, leads from `s₀` to `s`. -/
inductive Run (step : σ → ε → σ → Prop) (s₀ : σ) : List ε → σ → Prop
  | nil : Run step s₀ [] s₀
  | snoc {tr : List ε} {s : σ} {e : ε} {s' : σ} :
      Run step s₀ tr s → step s e s' → Run step s₀ (tr ++ [e]) s'

namespace Run

theorem single {e : ε} (h : step s e s') : Run step s [e] s' :=
  .snoc .nil h

theorem nil_iff : Run step s₀ [] s ↔ s = s₀ := by
  refine ⟨fun h => ?_, fun h => h ▸ .nil⟩
  generalize htr : ([] : List ε) = tr at h
  cases h with
  | nil => rfl
  | snoc _ _ => simp at htr

theorem append (h₁ : Run step s₀ tr₁ s) (h₂ : Run step s tr₂ s') :
    Run step s₀ (tr₁ ++ tr₂) s' := by
  induction h₂ with
  | nil => simpa using h₁
  | snoc _ hstep ih =>
      rw [← List.append_assoc]
      exact ih.snoc hstep

theorem cons {e : ε} (h : step s₀ e s) (hr : Run step s tr s') : Run step s₀ (e :: tr) s' :=
  (single h).append hr

/-- A run splits wherever its labels do. -/
theorem split (h : Run step s₀ (tr₁ ++ tr₂) s) :
    ∃ m, Run step s₀ tr₁ m ∧ Run step m tr₂ s := by
  induction tr₂ using List.reverseRecOn generalizing s with
  | nil => exact ⟨s, by simpa using h, .nil⟩
  | append_singleton tr₂ e ih =>
      rw [← List.append_assoc] at h
      generalize htr : tr₁ ++ tr₂ ++ [e] = tr at h
      cases h with
      | nil => simp at htr
      | snoc hrun hstep =>
          obtain ⟨rfl, he⟩ := List.append_inj' htr rfl
          obtain rfl : e = _ := by simpa using he
          obtain ⟨m, h₁, h₂⟩ := ih hrun
          exact ⟨m, h₁, h₂.snoc hstep⟩

theorem single_iff {e : ε} : Run step s₀ [e] s ↔ step s₀ e s := by
  refine ⟨fun h => ?_, single⟩
  change Run step s₀ ([] ++ [e]) s at h
  generalize htr : [] ++ [e] = l at h
  cases h with
  | nil => simp at htr
  | snoc hrun hstep =>
      obtain ⟨rfl, he⟩ := List.append_inj' htr rfl
      obtain rfl : e = _ := by simpa using he
      rwa [nil_iff.mp hrun] at hstep

/-- The first step of a run that has one. -/
theorem uncons {e : ε} (h : Run step s₀ (e :: tr) s) : ∃ m, step s₀ e m ∧ Run step m tr s := by
  change Run step s₀ ([e] ++ tr) s at h
  obtain ⟨m, h₁, h₂⟩ := h.split
  exact ⟨m, single_iff.mp h₁, h₂⟩

/-- What holds of the start and is kept by every step of a run holds after every run. The labels
done so far are part of what may be talked about. -/
theorem invariant {I : List ε → σ → Prop} (h₀ : I [] s₀)
    (hstep : ∀ tr s e s', Run step s₀ tr s → I tr s → step s e s' → I (tr ++ [e]) s')
    (h : Run step s₀ tr s) : I tr s := by
  induction h with
  | nil => exact h₀
  | snoc hrun hs ih => exact hstep _ _ _ _ hrun ih hs

/-- A property of states alone that every step keeps. -/
theorem stable {I : σ → Prop} (h₀ : I s₀) (hstep : ∀ s e s', I s → step s e s' → I s')
    (h : Run step s₀ tr s) : I s :=
  h.invariant (I := fun _ s => I s) h₀ (fun _ _ _ _ _ => hstep _ _ _)

/-- **A call.** If each step, as long as `D` holds, either keeps it up or is the one at which a
result `r` shows and `R r` holds, then a run that shows its result at the end, and none before,
ends in `R`. -/
theorem until_result {ρ : Type*} {res? : ε → Option ρ} {D : List ε → σ → Prop}
    {R : ρ → List ε → σ → Prop} {mid : List ε} {e : ε} {r : ρ} (h₀ : D [] s₀)
    (hstep : ∀ tr m e m', Run step s₀ tr m → D tr m → step m e m' →
      (res? e = none ∧ D (tr ++ [e]) m') ∨ ∃ r, res? e = some r ∧ R r (tr ++ [e]) m')
    (h : Run step s₀ (mid ++ [e]) s) (hmid : ∀ x ∈ mid, res? x = none) (he : res? e = some r) :
    R r (mid ++ [e]) s := by
  obtain ⟨m, hrun, hlast⟩ := h.split
  have hduring : D mid m := by
    refine hrun.invariant (I := fun tr m => (∀ x ∈ tr, res? x = none) → D tr m) ?_ ?_ hmid
    · intro _
      exact h₀
    · intro tr m e m' hrun ih hs hnone
      rw [List.forall_mem_append, List.forall_mem_singleton] at hnone
      rcases hstep tr m e m' hrun (ih hnone.1) hs with ⟨-, hnext⟩ | ⟨r, hr, -⟩
      · exact hnext
      · rw [hnone.2] at hr
        cases hr
  rcases hstep mid m e s hrun hduring (single_iff.mp hlast) with ⟨hnone, -⟩ | ⟨r', hr', hdone⟩
  · rw [hnone] at he
    cases he
  · rw [he, Option.some_inj] at hr'
    exact hr' ▸ hdone

/-- At some moment before the last step of a run, `P` held of the labels so far and of the state. -/
def Sometime (step : σ → ε → σ → Prop) (P : List ε → σ → Prop) (s₀ : σ) (tr : List ε) (s : σ) :
    Prop :=
  ∃ tr₁ m tr₂, tr = tr₁ ++ tr₂ ∧ tr₂ ≠ [] ∧ Run step s₀ tr₁ m ∧ P tr₁ m ∧ Run step m tr₂ s

/-- What holds now or held before is what held sometime once another step is done. -/
theorem sometime_snoc {P : List ε → σ → Prop} {e : ε} (h : Run step s₀ tr s)
    (hp : P tr s ∨ Sometime step P s₀ tr s) (hs : step s e s') :
    Sometime step P s₀ (tr ++ [e]) s' := by
  rcases hp with hp | ⟨tr₁, m, tr₂, rfl, -, h₁, hp, h₂⟩
  · exact ⟨tr, s, [e], rfl, List.cons_ne_nil e [], h, hp, .single hs⟩
  · exact ⟨tr₁, m, tr₂ ++ [e], List.append_assoc .., List.concat_ne_nil e tr₂, h₁, hp, h₂.snoc hs⟩

/-- One more label adds what a reading of the labels makes of it. -/
theorem filterMap_snoc {α : Type*} (f : ε → Option α) (tr : List ε) (e : ε) :
    (tr ++ [e]).filterMap f = tr.filterMap f ++ (f e).toList := by
  rw [List.filterMap_append]
  cases he : f e <;> simp [he]

/-! ## Simulation

`label` says what a concrete step means to the abstract system; a step that means nothing to it
must leave the abstract state alone. -/

variable {τ δ : Type*} {astep : τ → δ → τ → Prop} {t₀ : τ}

/-- One concrete step is matched: by the abstract step of its label, or by standing still. -/
def Matches (R : σ → τ → Prop) (astep : τ → δ → τ → Prop) (t : τ) (s' : σ) : Option δ → Prop
  | none => R s' t
  | some d => ∃ t', astep t d t' ∧ R s' t'

/-- **Forward simulation.** If related states stay related under matched steps, every concrete
run is a run of the abstract system once the labels are read through `label`. -/
theorem simulate {R : σ → τ → Prop} {label : ε → Option δ} (h₀ : R s₀ t₀)
    (hstep : ∀ s t e s', R s t → step s e s' → Matches R astep t s' (label e))
    (h : Run step s₀ tr s) : ∃ t, Run astep t₀ (tr.filterMap label) t ∧ R s t := by
  induction h with
  | nil => exact ⟨t₀, .nil, h₀⟩
  | @snoc tr s e s' _ hs ih =>
      obtain ⟨t, hrun, hR⟩ := ih
      have hm := hstep s t e s' hR hs
      rw [List.filterMap_append]
      cases hl : label e with
      | none =>
          rw [hl] at hm
          refine ⟨t, ?_, hm⟩
          simpa [hl] using hrun
      | some d =>
          rw [hl] at hm
          obtain ⟨t', hd, hR'⟩ := hm
          refine ⟨t', ?_, hR'⟩
          simpa [hl] using hrun.snoc hd

/-- **Refinement.** If related states stay related while a concrete step is made up for by as many
abstract ones as it takes, every concrete run is made up for by a run of the abstract system. -/
theorem refine {R : σ → τ → Prop} {label : ε → List δ} (h₀ : R s₀ t₀)
    (hstep : ∀ s t e s', R s t → step s e s' → ∃ t', Run astep t (label e) t' ∧ R s' t')
    (h : Run step s₀ tr s) : ∃ t, Run astep t₀ (tr.flatMap label) t ∧ R s t := by
  induction h with
  | nil => exact ⟨t₀, .nil, h₀⟩
  | @snoc tr s e s' _ hs ih =>
      obtain ⟨t, hrun, hR⟩ := ih
      obtain ⟨t', hmore, hR'⟩ := hstep s t e s' hR hs
      refine ⟨t', ?_, hR'⟩
      rw [List.flatMap_append, List.flatMap_singleton]
      exact hrun.append hmore

end Run

/-! ## Reachability

Where it does not matter what a run shows. -/

/-- Some run leads from one state to the other. -/
def Reaches (step : σ → ε → σ → Prop) (s s' : σ) : Prop := ∃ tr, Run step s tr s'

namespace Reaches

theorem refl (s : σ) : Reaches step s s := ⟨[], .nil⟩

theorem single {e : ε} (h : step s e s') : Reaches step s s' := ⟨[e], .single h⟩

theorem trans {s₁ s₂ s₃ : σ} : Reaches step s₁ s₂ → Reaches step s₂ s₃ → Reaches step s₁ s₃
  | ⟨_, h₁⟩, ⟨_, h₂⟩ => ⟨_, h₁.append h₂⟩

instance : Trans (Reaches step) (Reaches step) (Reaches step) := ⟨trans⟩

end Reaches

/-- A system each of whose steps can be taken by another in several reaches only what that one
reaches. -/
theorem Run.reaches {f : τ → σ} {t t' : τ} {ds : List δ} {I : τ → Prop} (h₀ : I t)
    (hI : ∀ t d t', I t → astep t d t' → I t')
    (hstep : ∀ t d t', I t → astep t d t' → Reaches step (f t) (f t'))
    (h : Run astep t ds t') : I t' ∧ Reaches step (f t) (f t') := by
  refine h.stable (I := fun t' => I t' ∧ Reaches step (f t) (f t')) ⟨h₀, .refl _⟩ ?_
  intro t₁ d t₂ ⟨h₁, hreach⟩ hd
  exact ⟨hI t₁ d t₂ h₁ hd, hreach.trans (hstep t₁ d t₂ h₁ hd)⟩

/-! ## Threads

The state of a system of threads has in it where each of them is, if anywhere. -/

/-- A step of one thread moves that one and leaves the others where they are. -/
theorem eq_some_of_update {W δ : Type*} [DecidableEq W] {f : W → Option δ} {w v : W} {x : Option δ}
    {d : δ} (h : Function.update f w x v = some d) :
    (v = w ∧ x = some d) ∨ (v ≠ w ∧ f v = some d) := by
  by_cases hvw : v = w
  · rw [hvw, Function.update_self] at h
    exact Or.inl ⟨hvw, h⟩
  · rw [Function.update_of_ne hvw] at h
    exact Or.inr ⟨hvw, h⟩

/-! ## Deterministic systems

Where a state has at most one step, two runs from it never part: the shorter one is the start of the
longer one. -/

section Deterministic

/-- There is at most one step from a state. -/
def Deterministic (step : σ → ε → σ → Prop) : Prop :=
  ∀ s e₁ s₁ e₂ s₂, step s e₁ s₁ → step s e₂ s₂ → e₁ = e₂ ∧ s₁ = s₂

/-- There is no step from this state. -/
def Halted (step : σ → ε → σ → Prop) (s : σ) : Prop := ∀ e s', ¬ step s e s'

/-- The runs from this state are of bounded length. -/
def Terminates (step : σ → ε → σ → Prop) (s : σ) : Prop :=
  ∃ n, ∀ tr s', Run step s tr s' → tr.length ≤ n

variable {s₁ s₂ t : σ}

/-- The shorter of two runs goes on as the longer one does. -/
theorem Run.continues (hdet : Deterministic step) (h₁ : Run step s₀ tr₁ s₁)
    (h₂ : Run step s₀ tr₂ s₂) (hle : tr₁.length ≤ tr₂.length) :
    ∃ tr, tr₂ = tr₁ ++ tr ∧ Run step s₁ tr s₂ := by
  induction h₁ with
  | nil => exact ⟨tr₂, rfl, h₂⟩
  | @snoc tr s e s' _ hs ih =>
      rw [List.length_append, List.length_singleton] at hle
      obtain ⟨rest, rfl, hrest⟩ := ih (by omega)
      cases rest with
      | nil =>
          rw [List.append_nil] at hle
          omega
      | cons e' rest =>
          obtain ⟨m, hm, hrest⟩ := hrest.uncons
          obtain ⟨rfl, rfl⟩ := hdet _ _ _ _ _ hs hm
          exact ⟨rest, by rw [List.append_assoc, List.singleton_append], hrest⟩

theorem Run.nil_of_halted (h : Run step s tr s') (hs : Halted step s) : tr = [] ∧ s' = s := by
  cases tr with
  | nil => exact ⟨rfl, nil_iff.mp h⟩
  | cons e tr =>
      obtain ⟨m, hm, -⟩ := h.uncons
      exact absurd hm (hs e m)

/-- Every run is on the way to where a run has ended. -/
theorem Run.to_halted (hdet : Deterministic step) (h₁ : Run step s₀ tr₁ s₁)
    (h₂ : Run step s₀ tr₂ t) (ht : Halted step t) : ∃ tr, tr₂ = tr₁ ++ tr ∧ Run step s₁ tr t := by
  rcases Nat.le_total tr₁.length tr₂.length with hle | hle
  · exact h₁.continues hdet h₂ hle
  · obtain ⟨tr, rfl, h⟩ := h₂.continues hdet h₁ hle
    obtain ⟨rfl, rfl⟩ := h.nil_of_halted ht
    exact ⟨[], by rw [List.append_nil, List.append_nil], .nil⟩

theorem Terminates.of_halted (hdet : Deterministic step) (hend : Reaches step s t)
    (ht : Halted step t) : Terminates step s := by
  obtain ⟨tr, hend⟩ := hend
  refine ⟨tr.length, ?_⟩
  intro tr' s' h
  obtain ⟨rest, rfl, -⟩ := h.to_halted hdet hend ht
  rw [List.length_append]
  exact Nat.le_add_right _ _

/-- Where there is always another step to be taken, there are runs of every length. -/
theorem Run.exists_length {I : σ → Prop} (hI : ∀ s, I s → ∃ e s', step s e s' ∧ I s') (h : I s)
    (n : Nat) : ∃ tr s', tr.length = n ∧ Run step s tr s' ∧ I s' := by
  induction n with
  | zero => exact ⟨[], s, rfl, .nil, h⟩
  | succ n ih =>
      obtain ⟨tr, m, hlen, hrun, hm⟩ := ih
      obtain ⟨e, s', hs, hs'⟩ := hI m hm
      exact ⟨tr ++ [e], s', by rw [List.length_append, hlen, List.length_singleton], hrun.snoc hs,
        hs'⟩

theorem Terminates.not_of_progress {I : σ → Prop}
    (hI : ∀ s, I s → ∃ e s', step s e s' ∧ I s') (hreach : Reaches step s s') (h : I s') :
    ¬ Terminates step s := by
  intro ⟨n, hn⟩
  obtain ⟨tr, hrun⟩ := hreach
  obtain ⟨rest, t, hlen, hrest, -⟩ := Run.exists_length hI h (n + 1)
  have hle := hn _ _ (hrun.append hrest)
  rw [List.length_append, hlen] at hle
  omega

end Deterministic

/-! ## Running a schedule

Where the choices left open by a relation are named by moves, a step is a function of its move and
a run can be computed. -/

section Exec

variable {μ : Type*} {next : σ → μ → Option (ε × σ)} {ms : List μ}

/-- The labels a list of moves gives and the state it ends in, if none of the moves is refused. -/
def exec (next : σ → μ → Option (ε × σ)) : σ → List μ → Option (List ε × σ)
  | s, [] => some ([], s)
  | s, m :: ms => do
      let (e, s') ← next s m
      let (tr, t) ← exec next s' ms
      return (e :: tr, t)

/-- A schedule is run piece by piece. -/
theorem exec_append {ms₁ ms₂ : List μ} (h₁ : exec next s₀ ms₁ = some (tr₁, s))
    (h₂ : exec next s ms₂ = some (tr₂, s')) :
    exec next s₀ (ms₁ ++ ms₂) = some (tr₁ ++ tr₂, s') := by
  induction ms₁ generalizing s₀ tr₁ with
  | nil =>
      cases h₁
      exact h₂
  | cons m ms₁ ih =>
      simp only [exec, List.cons_append, Option.bind_eq_bind, Option.bind_eq_some_iff, Prod.exists,
        Option.pure_def, Option.some.injEq, Prod.mk.injEq] at h₁ ⊢
      obtain ⟨e, m', hm, tr', t, hrest, rfl, rfl⟩ := h₁
      exact ⟨e, m', hm, tr' ++ tr₂, s', ih hrest, rfl, rfl⟩

theorem Run.of_exec (hnext : ∀ s m e s', next s m = some (e, s') → step s e s')
    (h : exec next s₀ ms = some (tr, s)) : Run step s₀ tr s := by
  induction ms generalizing s₀ tr with
  | nil =>
      cases h
      exact .nil
  | cons m ms ih =>
      simp only [exec, Option.bind_eq_bind, Option.bind_eq_some_iff, Prod.exists, Option.pure_def,
        Option.some.injEq, Prod.mk.injEq] at h
      obtain ⟨e, m', hm, tr', t, hrest, rfl, rfl⟩ := h
      exact .cons (hnext _ _ _ _ hm) (ih hrest)

/-- The run of a schedule that can be run. -/
theorem Run.of_exec_isSome (hnext : ∀ s m e s', next s m = some (e, s') → step s e s')
    (h : (exec next s₀ ms).isSome = true) :
    Run step s₀ ((exec next s₀ ms).get h).1 ((exec next s₀ ms).get h).2 :=
  of_exec hnext (Option.some_get h).symm

end Exec

end Shclog.Lib
