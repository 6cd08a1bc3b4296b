import Shclog.Lib.Log

/-! # Calls that file their argument once

Threads call an operation that puts its argument somewhere, once, and then returns. From a run's
labels one reads off which call begins with which argument, which one files it, and which one ends;
of the state come to one knows which names of calls are `used`, and which calls are under way,
before filing (`pre`) or after (`post`). `Calls` is the bookkeeping that any such operation keeps,
and `once` what it is for: a call that has returned has filed its argument exactly once. -/

namespace Shclog.Lib

variable {ε κ A : Type*}

theorem mem_filterMap_snoc {β : Type*} {f : ε → Option β} {tr : List ε} {e : ε} {b : β} :
    b ∈ (tr ++ [e]).filterMap f ↔ b ∈ tr.filterMap f ∨ f e = some b := by
  rw [List.filterMap_append, List.mem_append]
  simp

structure Calls (called filed : ε → Option (κ × A)) (returned : ε → Option κ)
    (used : κ → Prop) (pre post : κ → A → Prop) (tr : List ε) : Prop where
  called_used : ∀ c a, (c, a) ∈ tr.filterMap called → used c
  filed_called : ∀ c a, (c, a) ∈ tr.filterMap filed → (c, a) ∈ tr.filterMap called
  nodup : ((tr.filterMap filed).map Prod.fst).Nodup
  pre_called : ∀ c a, pre c a → (c, a) ∈ tr.filterMap called
  pre_unfiled : ∀ c a, pre c a → ∀ b, (c, b) ∉ tr.filterMap filed
  post_filed : ∀ c a, post c a → (c, a) ∈ tr.filterMap filed
  returned_filed : ∀ c ∈ tr.filterMap returned, ∃ a, (c, a) ∈ tr.filterMap filed

namespace Calls

variable {called filed : ε → Option (κ × A)} {returned : ε → Option κ} {used used' : κ → Prop}
  {pre pre' post post' : κ → A → Prop} {tr : List ε}

theorem nil (hpre : ∀ c a, ¬ pre c a) (hpost : ∀ c a, ¬ post c a) :
    Calls called filed returned used pre post [] := by
  refine ⟨?_, ?_, List.nodup_nil, ?_, ?_, ?_, ?_⟩
  · intro c a h
    cases h
  · intro c a h
    cases h
  · intro c a h
    exact absurd h (hpre c a)
  · intro c a h
    exact absurd h (hpre c a)
  · intro c a h
    exact absurd h (hpost c a)
  · intro c h
    cases h

/-- One more label. A call begins under a name not used before; what is filed was waiting to be,
and then waits no more; what returns has filed. -/
theorem snoc (h : Calls called filed returned used pre post tr) {e : ε}
    (hused : ∀ c, used c → used' c)
    (hcalled : ∀ c a, called e = some (c, a) → ¬ used c ∧ used' c)
    (hfiled : ∀ c a, filed e = some (c, a) → pre c a)
    (hreturned : ∀ c, returned e = some c → ∃ a, post c a)
    (hpre : ∀ c a, pre' c a →
      (pre c a ∧ ∀ b, filed e ≠ some (c, b)) ∨ called e = some (c, a))
    (hpost : ∀ c a, post' c a → post c a ∨ filed e = some (c, a)) :
    Calls called filed returned used' pre' post' (tr ++ [e]) := by
  refine ⟨?_, ?_, ?_, ?_, ?_, ?_, ?_⟩
  · intro c a hc
    rcases mem_filterMap_snoc.mp hc with hc | hc
    · exact hused c (h.called_used c a hc)
    · exact (hcalled c a hc).2
  · intro c a hc
    rw [mem_filterMap_snoc] at hc ⊢
    left
    rcases hc with hc | hc
    · exact h.filed_called c a hc
    · exact h.pre_called c a (hfiled c a hc)
  · rw [List.filterMap_append, List.map_append, List.nodup_append]
    cases hf : filed e with
    | none => simpa [hf] using h.nodup
    | some x =>
        have hx := hfiled x.1 x.2 hf
        refine ⟨h.nodup, by simp [hf], ?_⟩
        intro c hc c' hc' hcc
        obtain ⟨⟨_, b⟩, hb, rfl⟩ := List.mem_map.mp hc
        obtain rfl : c' = x.1 := by simpa [hf] using hc'
        exact h.pre_unfiled _ _ hx b (hcc ▸ hb)
  · intro c a hc
    rw [mem_filterMap_snoc]
    rcases hpre c a hc with hc | hc
    · exact Or.inl (h.pre_called c a hc.1)
    · exact Or.inr hc
  · intro c a hc b hb
    rw [mem_filterMap_snoc] at hb
    rcases hpre c a hc with ⟨hc, hne⟩ | hc
    · rcases hb with hb | hb
      · exact h.pre_unfiled c a hc b hb
      · exact hne b hb
    · -- a call that has just begun would have been called before
      have hnew := (hcalled c a hc).1
      rcases hb with hb | hb
      · exact hnew (h.called_used c b (h.filed_called c b hb))
      · exact hnew (h.called_used c b (h.pre_called c b (hfiled c b hb)))
  · intro c a hc
    rw [mem_filterMap_snoc]
    exact (hpost c a hc).imp_left (h.post_filed c a)
  · intro c hc
    have hfil : ∃ a, (c, a) ∈ tr.filterMap filed := by
      rcases mem_filterMap_snoc.mp hc with hc | hc
      · exact h.returned_filed c hc
      · obtain ⟨a, ha⟩ := hreturned c hc
        exact ⟨a, h.post_filed c a ha⟩
    obtain ⟨a, ha⟩ := hfil
    exact ⟨a, mem_filterMap_snoc.mpr (Or.inl ha)⟩

/-- **A call that has returned filed the argument it was made with, once.** -/
theorem once [DecidableEq κ] (h : Calls called filed returned used pre post tr) {c : κ}
    (hc : c ∈ tr.filterMap returned) : ∃ a, (c, a) ∈ tr.filterMap called ∧
      (tr.filterMap filed).filter (·.1 = c) = [(c, a)] := by
  obtain ⟨a, ha⟩ := h.returned_filed c hc
  exact ⟨a, h.filed_called c a ha, Log.filter_key_eq_singleton h.nodup ha⟩

end Calls

/-! ## Threads

The usual way to be under way: a thread `p` has returned from `calls p` calls and stands at some
point of the next one or outside, and `stage` says of a point of the code what the argument is and
whether it has been filed. The call is named by the thread and the number of calls before it. -/

section Threads

variable {P Pc : Type*} {stage : Pc → A × Bool} {calls : P → Nat} {pcs : P → Option Pc}
  {called filed : ε → Option ((P × Nat) × A)} {returned : ε → Option (P × Nat)} {tr : List ε}
  {e : ε} {p : P} {pc pc' : Pc} {a : A}

/-- The call `c` has begun. -/
def Begun (calls : P → Nat) (pcs : P → Option Pc) (c : P × Nat) : Prop :=
  c.2 < calls c.1 ∨ (c.2 = calls c.1 ∧ pcs c.1 ≠ none)

theorem Begun.goto [DecidableEq P] {c : P × Nat} (h : Begun calls pcs c) :
    Begun calls (Function.update pcs p (some pc)) c := by
  refine h.imp_right fun ⟨heq, hne⟩ => ⟨heq, ?_⟩
  by_cases hcp : c.1 = p
  · rw [hcp, Function.update_self]
    exact Option.some_ne_none _
  · rwa [Function.update_of_ne hcp]

theorem Begun.leave [DecidableEq P] {c : P × Nat} (h : Begun calls pcs c) :
    Begun (Function.update calls p (calls p + 1)) (Function.update pcs p none) c := by
  by_cases hcp : c.1 = p
  · left
    rw [hcp, Function.update_self, ← hcp]
    rcases h with hlt | ⟨heq, -⟩ <;> omega
  · rw [Begun, Function.update_of_ne hcp, Function.update_of_ne hcp]
    exact h

/-- The call `c` is under way with argument `a`, filed or not. -/
def UnderWay (stage : Pc → A × Bool) (calls : P → Nat) (pcs : P → Option Pc) (filed : Bool)
    (c : P × Nat) (a : A) : Prop :=
  ∃ pc, pcs c.1 = some pc ∧ c.2 = calls c.1 ∧ stage pc = (a, filed)

/-- The call `c` is under way at a point that has the mark. -/
def Marked (mark : Option Pc → Bool) (calls : P → Nat) (pcs : P → Option Pc) (c : P × Nat) : Prop :=
  c.2 = calls c.1 ∧ mark (pcs c.1)

namespace Marked

variable [DecidableEq P] {mark : Option Pc → Bool} {left : Option Pc} {c : P × Nat}

theorem goto_iff (h : mark left = mark (pcs p)) :
    Marked mark calls (Function.update pcs p left) c ↔ Marked mark calls pcs c := by
  by_cases hc : c.1 = p
  · rw [Marked, hc, Function.update_self, h, Marked, hc]
  · rw [Marked, Function.update_of_ne hc, Marked]

theorem begin_iff (h : mark (pcs p) = false) (hleft : mark left = true) :
    Marked mark calls (Function.update pcs p left) c ↔
      Marked mark calls pcs c ∨ c = (p, calls p) := by
  by_cases hc : c.1 = p
  · have hno : ¬ Marked mark calls pcs c := by
      rintro ⟨-, hm⟩
      rw [hc, h] at hm
      cases hm
    rw [or_iff_right hno]
    constructor
    · rintro ⟨hc2, -⟩
      exact Prod.ext hc (hc2.trans (congrArg calls hc))
    · rintro rfl
      exact ⟨rfl, by rw [Function.update_self, hleft]⟩
  · have hne : c ≠ (p, calls p) := fun he => hc (congrArg Prod.fst he)
    simp [Marked, hne, Function.update_of_ne hc]

theorem leave_iff (hnone : mark none = false) :
    Marked mark (Function.update calls p (calls p + 1)) (Function.update pcs p none) c ↔
      Marked mark calls pcs c ∧ c ≠ (p, calls p) := by
  by_cases hc : c.1 = p
  · apply iff_of_false
    · simp [Marked, hc, hnone]
    · rintro ⟨⟨hc2, -⟩, hne⟩
      exact hne (Prod.ext hc (by rw [hc2, hc]))
  · have hne : c ≠ (p, calls p) := fun he => hc (congrArg Prod.fst he)
    simp [Marked, hne, Function.update_of_ne hc]

/-- The call that a thread returns from is over; what was over stays so. -/
theorem over_or_leave (hnone : mark none = false)
    (h : c.2 < calls c.1 ∨ Marked mark calls pcs c) :
    c.2 < Function.update calls p (calls p + 1) c.1 ∨
      Marked mark (Function.update calls p (calls p + 1)) (Function.update pcs p none) c := by
  rw [leave_iff hnone]
  by_cases hc : c = (p, calls p)
  · left
    simp [hc]
  · refine h.imp ?_ fun hm => ⟨hm, hc⟩
    intro hlt
    by_cases hc1 : c.1 = p
    · rw [hc1, Function.update_self]
      exact Nat.lt_succ_of_lt (hc1 ▸ hlt)
    · rwa [Function.update_of_ne hc1]

end Marked

abbrev ThreadCalls (called filed : ε → Option ((P × Nat) × A)) (returned : ε → Option (P × Nat))
    (stage : Pc → A × Bool) (calls : P → Nat) (pcs : P → Option Pc) (tr : List ε) : Prop :=
  Calls called filed returned (Begun calls pcs) (UnderWay stage calls pcs false)
    (UnderWay stage calls pcs true) tr

namespace ThreadCalls

theorem nil : ThreadCalls called filed returned stage calls (fun _ => none) [] := by
  apply Calls.nil
  · rintro c a ⟨pc, hc, -⟩
    cases hc
  · rintro c a ⟨pc, hc, -⟩
    cases hc

/-- Nothing happens to any call. -/
theorem skip (h : ThreadCalls called filed returned stage calls pcs tr) (hc : called e = none)
    (hf : filed e = none) (hr : returned e = none) :
    ThreadCalls called filed returned stage calls pcs (tr ++ [e]) := by
  refine h.snoc (fun _ h => h) ?_ ?_ ?_ (fun c a hca => Or.inl ⟨hca, ?_⟩)
    (fun _ _ hca => Or.inl hca)
  all_goals simp [hc, hf, hr]

variable [DecidableEq P]

/-- A thread begins a call. -/
theorem call (h : ThreadCalls called filed returned stage calls pcs tr) (hp : pcs p = none)
    (hstage : stage pc = (a, false)) (hc : called e = some ((p, calls p), a))
    (hf : filed e = none) (hr : returned e = none) :
    ThreadCalls called filed returned stage calls (Function.update pcs p (some pc))
      (tr ++ [e]) := by
  apply h.snoc
  · rintro c (hlt | ⟨heq, hne⟩)
    · exact Or.inl hlt
    · refine Or.inr ⟨heq, ?_⟩
      by_cases hcp : c.1 = p
      · exact absurd (hcp ▸ hp) hne
      · rwa [Function.update_of_ne hcp]
  · intro c b hcb
    rw [hc] at hcb
    cases hcb
    refine ⟨?_, Or.inr ⟨rfl, by rw [Function.update_self]; exact Option.some_ne_none _⟩⟩
    rintro (hlt | ⟨-, hne⟩)
    · exact Nat.lt_irrefl _ hlt
    · exact hne hp
  · simp [hf]
  · simp [hr]
  · rintro c b ⟨pc₁, hpc, heq, hb⟩
    rcases eq_some_of_update hpc with ⟨hcp, ⟨⟩⟩ | ⟨-, hpc⟩
    · rw [hstage] at hb
      cases hb
      right
      rw [hc, ← hcp, ← heq]
    · exact Or.inl ⟨⟨pc₁, hpc, heq, hb⟩, by simp [hf]⟩
  · rintro c b ⟨pc₁, hpc, heq, hb⟩
    rcases eq_some_of_update hpc with ⟨-, ⟨⟩⟩ | ⟨-, hpc⟩
    · rw [hstage] at hb
      cases hb
    · exact Or.inl ⟨pc₁, hpc, heq, hb⟩

/-- A thread goes on within its call, and may file its argument. -/
theorem goto (h : ThreadCalls called filed returned stage calls pcs tr) (hp : pcs p = some pc)
    (hc : called e = none) (hr : returned e = none)
    (hf : (stage pc' = stage pc ∧ filed e = none) ∨ (∃ a, stage pc = (a, false) ∧
      stage pc' = (a, true) ∧ filed e = some ((p, calls p), a))) :
    ThreadCalls called filed returned stage calls (Function.update pcs p (some pc'))
      (tr ++ [e]) := by
  apply h.snoc
  · rintro c (hlt | ⟨heq, hne⟩)
    · exact Or.inl hlt
    · refine Or.inr ⟨heq, ?_⟩
      by_cases hcp : c.1 = p
      · rw [hcp, Function.update_self]
        exact Option.some_ne_none _
      · rwa [Function.update_of_ne hcp]
  · simp [hc]
  · intro c b hcb
    rcases hf with ⟨-, hf⟩ | ⟨a, hst, -, hf⟩
    · rw [hf] at hcb
      cases hcb
    · rw [hf] at hcb
      cases hcb
      exact ⟨pc, hp, rfl, hst⟩
  · simp [hr]
  · rintro c b ⟨pc₁, hpc, heq, hb⟩
    left
    rcases eq_some_of_update hpc with ⟨hcp, ⟨⟩⟩ | ⟨hcp, hpc⟩
    · rcases hf with ⟨hst, hf⟩ | ⟨a, -, hst, -⟩
      · exact ⟨⟨pc, by rw [hcp, hp], heq, hst ▸ hb⟩, by simp [hf]⟩
      · rw [hst] at hb
        cases hb
    · refine ⟨⟨pc₁, hpc, heq, hb⟩, ?_⟩
      intro x hx
      rcases hf with ⟨-, hf⟩ | ⟨a, -, -, hf⟩
      · rw [hf] at hx
        cases hx
      · rw [hf] at hx
        cases hx
        exact hcp rfl
  · rintro c b ⟨pc₁, hpc, heq, hb⟩
    rcases eq_some_of_update hpc with ⟨hcp, ⟨⟩⟩ | ⟨-, hpc⟩
    · rcases hf with ⟨hst, -⟩ | ⟨a, -, hst, hf⟩
      · exact Or.inl ⟨pc, by rw [hcp, hp], heq, hst ▸ hb⟩
      · rw [hst] at hb
        cases hb
        right
        rw [hf, ← hcp, ← heq]
    · exact Or.inl ⟨pc₁, hpc, heq, hb⟩

/-- A thread that has filed its argument returns. -/
theorem leave (h : ThreadCalls called filed returned stage calls pcs tr) (hp : pcs p = some pc)
    (hstage : stage pc = (a, true)) (hc : called e = none) (hf : filed e = none)
    (hr : returned e = some (p, calls p)) :
    ThreadCalls called filed returned stage (Function.update calls p (calls p + 1))
      (Function.update pcs p none) (tr ++ [e]) := by
  have hother : ∀ {b : Bool} {c : P × Nat} {x : A},
      UnderWay stage (Function.update calls p (calls p + 1)) (Function.update pcs p none) b c x →
        UnderWay stage calls pcs b c x := by
    rintro b c x ⟨pc₁, hpc, heq, hx⟩
    rcases eq_some_of_update hpc with ⟨-, ⟨⟩⟩ | ⟨hcp, hpc⟩
    rw [Function.update_of_ne hcp] at heq
    exact ⟨pc₁, hpc, heq, hx⟩
  refine h.snoc ?_ ?_ ?_ ?_ (fun c b hcb => Or.inl ⟨hother hcb, by simp [hf]⟩)
    (fun c b hcb => Or.inl (hother hcb))
  · rintro c (hlt | ⟨heq, hne⟩)
    · left
      by_cases hcp : c.1 = p
      · rw [hcp, Function.update_self, ← hcp]
        exact Nat.lt_succ_of_lt hlt
      · rwa [Function.update_of_ne hcp]
    · by_cases hcp : c.1 = p
      · left
        rw [hcp, Function.update_self, heq, hcp]
        exact Nat.lt_succ_self _
      · right
        rw [Function.update_of_ne hcp, Function.update_of_ne hcp]
        exact ⟨heq, hne⟩
  · simp [hc]
  · simp [hf]
  · intro c hcr
    rw [hr] at hcr
    cases hcr
    exact ⟨a, pc, hp, rfl, hstage⟩

end ThreadCalls

end Threads

/-! ## Before and after

What one call has filed by the time it returns stands before all that is filed by calls yet to
begin. -/

section Order

variable {σ : Type*} {step : σ → ε → σ → Prop} {s s' : σ} {tr tr' : List ε}
  {called filed : ε → Option (κ × A)} {returned : ε → Option κ} {U : σ → κ → Prop}
  {pre post : κ → A → Prop}

/-- Names in use are not taken again. -/
theorem Run.called_new (hused : ∀ s e s', step s e s' → ∀ c, U s c → U s' c)
    (hcalled : ∀ s e s', step s e s' → ∀ c a, called e = some (c, a) → ¬ U s c)
    (h : Run step s tr s') : ∀ c a, (c, a) ∈ tr.filterMap called → ¬ U s c := by
  refine (h.invariant (I := fun tr m => (∀ c, U s c → U m c) ∧
    ∀ c a, (c, a) ∈ tr.filterMap called → ¬ U s c) ?_ ?_).2
  · refine ⟨fun _ h => h, ?_⟩
    intro c a h
    cases h
  · intro tr m e m' _ ⟨hgrow, hnew⟩ hs
    refine ⟨fun c hc => hused m e m' hs c (hgrow c hc), ?_⟩
    intro c a hc hu
    rcases mem_filterMap_snoc.mp hc with hc | hc
    · exact hnew c a hc hu
    · exact hcalled m e m' hs c a hc (hgrow c hu)

/-- **Real time.** A call that has returned filed its argument before whatever a call yet to begin
files. -/
theorem Calls.before (h : Calls called filed returned (U s) pre post tr)
    (hused : ∀ s e s', step s e s' → ∀ c, U s c → U s' c)
    (hcalled : ∀ s e s', step s e s' → ∀ c a, called e = some (c, a) → ¬ U s c)
    (hrun : Run step s tr' s') {c c' : κ} {a' b : A} (hc : c ∈ tr.filterMap returned)
    (hc' : (c', a') ∈ tr'.filterMap called) {j : Nat}
    (hj : ((tr ++ tr').filterMap filed)[j]? = some (c', b)) :
    ∃ i a, i < j ∧ ((tr ++ tr').filterMap filed)[i]? = some (c, a) := by
  obtain ⟨a, ha⟩ := h.returned_filed c hc
  obtain ⟨i, hi⟩ := List.mem_iff_getElem?.mp ha
  have hlt := (List.getElem?_eq_some_iff.mp hi).1
  rw [List.filterMap_append] at hj ⊢
  refine ⟨i, a, Nat.lt_of_lt_of_le hlt ?_, by rw [List.getElem?_append_left hlt, hi]⟩
  apply Nat.le_of_not_lt
  intro hjlt
  -- otherwise `c'` had filed, and so had begun, already in the first part
  rw [List.getElem?_append_left hjlt] at hj
  have hold := h.called_used c' b (h.filed_called c' b (List.mem_of_getElem? hj))
  exact Run.called_new hused hcalled hrun c' a' hc' hold

end Order

end Shclog.Lib
