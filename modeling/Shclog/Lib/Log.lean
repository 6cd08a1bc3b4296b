import Shclog.Lib.Run

/-! # An append-only log read by one cursor

What a queue is for, said without a queue: things are pushed, in some order, and popped in that
order. The log keeps everything ever pushed and how many of them have been popped, so positions
never move; what a reader of the log is shown of an entry is its `item`, so that an entry may
carry more than is ever delivered (who pushed it, say). -/

namespace Shclog.Lib

/-- Everything ever pushed, and how much of it has been popped. -/
structure Log (α : Type*) where
  pushed : List α
  popped : Nat
  popped_le : popped ≤ pushed.length

namespace Log

variable {α β : Type*}

def empty : Log α := ⟨[], 0, Nat.le_refl 0⟩

def push (g : Log α) (a : α) : Log α :=
  ⟨g.pushed ++ [a], g.popped, by simpa using Nat.le_succ_of_le g.popped_le⟩

def pop (g : Log α) (h : g.popped < g.pushed.length) : Log α := ⟨g.pushed, g.popped + 1, h⟩

/-- What has been pushed and not popped, oldest first. -/
def pending (g : Log α) : List α := g.pushed.drop g.popped

@[simp] theorem empty_pushed : (empty : Log α).pushed = [] := rfl
@[simp] theorem empty_popped : (empty : Log α).popped = 0 := rfl
@[simp] theorem push_pushed (g : Log α) (a : α) : (g.push a).pushed = g.pushed ++ [a] := rfl
@[simp] theorem push_popped (g : Log α) (a : α) : (g.push a).popped = g.popped := rfl
@[simp] theorem pop_pushed (g : Log α) (h : g.popped < g.pushed.length) :
    (g.pop h).pushed = g.pushed := rfl
@[simp] theorem pop_popped (g : Log α) (h : g.popped < g.pushed.length) :
    (g.pop h).popped = g.popped + 1 := rfl

theorem getElem?_push {g : Log α} {a b : α} {i : Nat} (h : g.pushed[i]? = some a) :
    (g.push b).pushed[i]? = some a := by
  rw [push_pushed, List.getElem?_append_left (List.getElem?_eq_some_iff.mp h).1]
  exact h

/-- An entry of an extended log is an old one, or the new one at its end. -/
theorem of_getElem?_push {g : Log α} {a b : α} {i : Nat} (h : (g.push b).pushed[i]? = some a) :
    g.pushed[i]? = some a ∨ (i = g.pushed.length ∧ a = b) := by
  rcases Nat.lt_or_ge i g.pushed.length with hlt | hge
  · rw [push_pushed, List.getElem?_append_left hlt] at h
    exact Or.inl h
  · rw [push_pushed, List.getElem?_append_right hge] at h
    obtain ⟨hlt, heq⟩ := List.getElem?_eq_some_iff.mp h
    have hi : i = g.pushed.length := by
      rw [List.length_singleton] at hlt
      omega
    exact Or.inr ⟨hi, by simpa [hi] using heq.symm⟩

@[simp] theorem pending_push (g : Log α) (a : α) : (g.push a).pending = g.pending ++ [a] := by
  simp [pending, List.drop_append_of_le_length g.popped_le]

theorem length_pending (g : Log α) : g.pending.length = g.pushed.length - g.popped :=
  List.length_drop ..

theorem pending_cons (g : Log α) (h : g.popped < g.pushed.length) :
    g.pending = g.pushed[g.popped] :: (g.pop h).pending :=
  List.drop_eq_getElem_cons h

theorem pending_eq_nil_iff (g : Log α) : g.pending = [] ↔ g.pushed.length = g.popped := by
  have := g.popped_le
  rw [pending, List.drop_eq_nil_iff]
  omega

theorem getElem?_pending (g : Log α) (i : Nat) : g.pending[i]? = g.pushed[g.popped + i]? :=
  List.getElem?_drop ..

/-! ## Operations as labelled steps -/

/-- An operation on a log: an entry is pushed, or the item of one is popped. -/
inductive Op (α β : Type*) where
  | push (a : α)
  | pop (b : β)

namespace Op

def pushed? : Op α β → Option α
  | .push a => some a
  | .pop _ => none

def popped? : Op α β → Option β
  | .push _ => none
  | .pop b => some b

end Op

/-- The steps of a log that shows `item a` of the entry `a` it pops. -/
inductive Step (item : α → β) : Log α → Op α β → Log α → Prop
  | push (g : Log α) (a : α) : Step item g (.push a) (g.push a)
  | pop (g : Log α) (h : g.popped < g.pushed.length) :
      Step item g (.pop (item g.pushed[g.popped])) (g.pop h)

variable {item : α → β}

/-- Popping shows the oldest pending entry and removes it. -/
theorem Step.pending_pop {g g' : Log α} {b : β} (h : Step item g (.pop b) g') :
    (g.pending.map item).head? = some b ∧ g'.pending = g.pending.tail := by
  cases h with
  | pop hlt =>
      rw [g.pending_cons hlt]
      exact ⟨rfl, rfl⟩

/-- The log of a run is what was pushed in it, and its cursor has passed exactly what was popped. -/
theorem run_eq {tr : List (Op α β)} {g : Log α} (h : Run (Step item) empty tr g) :
    tr.filterMap Op.pushed? = g.pushed ∧
      tr.filterMap Op.popped? = (g.pushed.take g.popped).map item := by
  refine h.invariant (I := fun tr g => tr.filterMap Op.pushed? = g.pushed ∧
    tr.filterMap Op.popped? = (g.pushed.take g.popped).map item) (by simp) ?_
  rintro tr g op g' - ⟨hpush, hpop⟩ hstep
  cases hstep with
  | push a =>
      have htake : (g.pushed ++ [a]).take g.popped = g.pushed.take g.popped :=
        List.take_append_of_le_length g.popped_le
      rw [List.filterMap_append, List.filterMap_append, hpush, hpop]
      show g.pushed ++ [a] = g.pushed ++ [a] ∧ _ ++ [] = ((g.pushed ++ [a]).take g.popped).map item
      rw [htake, List.append_nil]
      exact ⟨rfl, rfl⟩
  | pop hlt =>
      have htake : g.pushed.take (g.popped + 1) = g.pushed.take g.popped ++ [g.pushed[g.popped]] :=
        List.take_succ_eq_append_getElem hlt
      rw [List.filterMap_append, List.filterMap_append, hpush, hpop]
      show g.pushed ++ [] = g.pushed ∧ _ = (g.pushed.take (g.popped + 1)).map item
      rw [htake, List.map_append]
      exact ⟨List.append_nil _, rfl⟩

theorem length_popped {tr : List (Op α β)} {g : Log α} (h : Run (Step item) empty tr g) :
    (tr.filterMap Op.popped?).length = g.popped := by
  rw [(run_eq h).2, List.length_map, List.length_take, Nat.min_eq_left g.popped_le]

/-- What a run that means a run of a log shows: `push?` and `pop?` read off its labels what `label`
says they are to the log. -/
theorem run_reads {ε : Type*} {tr : List ε} {label : ε → Option (Op α β)} {push? : ε → Option α}
    {pop? : ε → Option β} {g : Log α} (hpush : ∀ e, (label e).bind Op.pushed? = push? e)
    (hpop : ∀ e, (label e).bind Op.popped? = pop? e)
    (h : Run (Step item) empty (tr.filterMap label) g) :
    g.pushed = tr.filterMap push? ∧ g.popped = (tr.filterMap pop?).length ∧
      tr.filterMap pop? = ((tr.filterMap push?).take (tr.filterMap pop?).length).map item := by
  have hreadPush : (tr.filterMap label).filterMap Op.pushed? = tr.filterMap push? := by
    rw [List.filterMap_filterMap]
    exact congrArg (fun f => tr.filterMap f) (funext hpush)
  have hreadPop : (tr.filterMap label).filterMap Op.popped? = tr.filterMap pop? := by
    rw [List.filterMap_filterMap]
    exact congrArg (fun f => tr.filterMap f) (funext hpop)
  have hlen := length_popped h
  obtain ⟨hpushed, hpopped⟩ := run_eq h
  rw [hreadPush] at hpushed
  rw [hreadPop] at hpopped hlen
  exact ⟨hpushed.symm, hlen.symm, by rw [hpushed, hlen]; exact hpopped⟩

/-- In a list whose keys are distinct, an entry is the only one with its key. -/
theorem filter_key_eq_singleton {κ : Type*} [DecidableEq κ] {l : List (κ × α)} {c : κ} {a : α}
    (hl : (l.map Prod.fst).Nodup) (hmem : (c, a) ∈ l) : l.filter (·.1 = c) = [(c, a)] := by
  induction l with
  | nil => cases hmem
  | cons x l ih =>
      rw [List.map_cons, List.nodup_cons] at hl
      have hkey : ∀ y ∈ l, y.1 ≠ x.1 := by
        intro y hy hyx
        exact hl.1 (hyx ▸ List.mem_map_of_mem hy)
      rcases List.mem_cons.mp hmem with rfl | hmem
      · have hrest : l.filter (·.1 = c) = [] := by
          rw [List.filter_eq_nil_iff]
          intro y hy
          simpa using hkey y hy
        rw [List.filter_cons_of_pos (by simp), hrest]
      · have hne : ¬ x.1 = c := fun h => hkey _ hmem h.symm
        rw [List.filter_cons_of_neg (by simpa using hne)]
        exact ih hl.2 hmem

theorem filter_key_eq_nil {κ : Type*} [DecidableEq κ] {l : List (κ × α)} {c : κ}
    (h : ∀ a, (c, a) ∉ l) : l.filter (·.1 = c) = [] := by
  rw [List.filter_eq_nil_iff]
  rintro ⟨c', a⟩ hmem
  simp only [decide_eq_true_eq]
  intro heq
  subst heq
  exact h a hmem

end Log

end Shclog.Lib
