import Mathlib.Logic.Function.Basic
import Mathlib.Data.List.Nodup

/-! # Linked chains with holes

A singly linked list under construction by several parties. A node is appended in two steps: it is
made the last one, and only later does its predecessor get the link to it. In between the chain has
a hole, and the link is `pending`. `Chain` says that the nodes between the first and the last form
one list all the same, each joined to the next by a link or by a pending one; the rules below are
the ways such a chain can change. -/

namespace Shclog.Lib

variable {α : Type*} {l : List α} {a a' b b' n : α}

/-- In the list, `b` comes right after `a`. -/
def Follows : List α → α → α → Prop
  | [], _, _ => False
  | x :: l, a, b => (x = a ∧ l.head? = some b) ∨ Follows l a b

namespace Follows

theorem mem_left (h : Follows l a b) : a ∈ l := by
  induction l with
  | nil => cases h
  | cons x l ih =>
      rcases h with ⟨rfl, -⟩ | h
      · exact List.mem_cons_self
      · exact List.mem_cons_of_mem _ (ih h)

theorem mem_tail {x : α} (h : Follows (x :: l) a b) : b ∈ l := by
  induction l generalizing x with
  | nil =>
      rcases h with ⟨-, h⟩ | h
      · cases h
      · cases h
  | cons y l ih =>
      rcases h with ⟨-, h⟩ | h
      · obtain rfl : y = b := by simpa using h
        exact List.mem_cons_self
      · exact List.mem_cons_of_mem _ (ih h)

theorem mem_right (h : Follows l a b) : b ∈ l := by
  cases l with
  | nil => cases h
  | cons x l => exact List.mem_cons_of_mem _ h.mem_tail

theorem left_unique (hl : l.Nodup) (h : Follows l a b) (h' : Follows l a b') : b = b' := by
  induction l with
  | nil => cases h
  | cons x l ih =>
      rw [List.nodup_cons] at hl
      rcases h with ⟨hx, h⟩ | h
      · rcases h' with ⟨-, h'⟩ | h'
        · exact Option.some.inj (h.symm.trans h')
        · exact absurd (hx ▸ h'.mem_left) hl.1
      · rcases h' with ⟨hx, -⟩ | h'
        · exact absurd (hx ▸ h.mem_left) hl.1
        · exact ih hl.2 h h'

theorem ne_head (hl : l.Nodup) (h : Follows l a b) : l.head? ≠ some b := by
  cases l with
  | nil => cases h
  | cons x l =>
      rw [List.nodup_cons] at hl
      intro hb
      obtain rfl : x = b := by simpa using hb
      exact hl.1 h.mem_tail

end Follows

theorem follows_concat :
    Follows (l ++ [n]) a b ↔ Follows l a b ∨ (l.getLast? = some a ∧ b = n) := by
  induction l with
  | nil => simp [Follows]
  | cons x l ih =>
      cases l with
      | nil =>
          simp only [List.cons_append, List.nil_append, Follows, List.head?_cons, List.head?_nil,
            List.getLast?_singleton, Option.some.injEq]
          grind
      | cons y l =>
          show (x = a ∧ some y = some b) ∨ Follows (y :: l ++ [n]) a b ↔
            ((x = a ∧ some y = some b) ∨ Follows (y :: l) a b) ∨ _
          rw [ih, or_assoc, List.getLast?_cons_cons]

/-- A node that is not the last has another after it. -/
theorem exists_follows (h : a ∈ l) (hlast : l.getLast? ≠ some a) : ∃ b, Follows l a b := by
  induction l with
  | nil => cases h
  | cons x l ih =>
      cases l with
      | nil =>
          obtain rfl : a = x := by simpa using h
          exact absurd List.getLast?_singleton hlast
      | cons y l =>
          rcases List.mem_cons.mp h with rfl | h
          · exact ⟨y, Or.inl ⟨rfl, rfl⟩⟩
          · rw [List.getLast?_cons_cons] at hlast
            obtain ⟨b, hb⟩ := ih h hlast
            exact ⟨b, Or.inr hb⟩

/-! ## Chains -/

/-- The nodes of `C` are linked, first to last, but for pending links. -/
structure Chain (next : α → Option α) (pending : α → α → Prop) (first last : α) (C : List α) :
    Prop where
  nodup : C.Nodup
  head_eq : C.head? = some first
  last_eq : C.getLast? = some last
  link : ∀ a b, Follows C a b → next a = some b ∨ (next a = none ∧ pending a b)
  hole : ∀ a b, pending a b → Follows C a b ∧ next a = none
  ends : next last = none

namespace Chain

variable {next : α → Option α} {pending pending' : α → α → Prop} {first last m : α} {C : List α}

theorem congr (h : Chain next pending first last C) (hp : ∀ a b, pending' a b ↔ pending a b) :
    Chain next pending' first last C := by
  refine ⟨h.nodup, h.head_eq, h.last_eq, ?_, ?_, h.ends⟩
  · intro a b hab
    rw [hp]
    exact h.link a b hab
  · intro a b hab
    exact h.hole a b ((hp a b).mp hab)

theorem singleton (h : next a = none) (hp : ∀ b c, ¬ pending b c) :
    Chain next pending a a [a] := by
  refine ⟨List.nodup_singleton a, rfl, rfl, ?_, ?_, h⟩
  · rintro x y (⟨-, hy⟩ | hy)
    · cases hy
    · cases hy
  · intro x y hxy
    exact absurd hxy (hp x y)

theorem first_mem (h : Chain next pending first last C) : first ∈ C :=
  List.mem_of_mem_head? h.head_eq

theorem last_mem (h : Chain next pending first last C) : last ∈ C :=
  List.mem_of_getLast? h.last_eq

/-- The last node has nothing after it. -/
theorem ne_last (h : Chain next pending first last C) (hab : Follows C a b) : a ≠ last := by
  obtain ⟨C', hC⟩ : ∃ C', C = C' ++ [last] := List.getLast?_eq_some_iff.mp h.last_eq
  have hnodup := h.nodup
  rw [hC, List.nodup_append] at hnodup
  rw [hC, follows_concat] at hab
  intro heq
  subst heq
  rcases hab with hab | ⟨hab, -⟩
  · exact hnodup.2.2 a hab.mem_left a (by simp) rfl
  · exact hnodup.2.2 a (List.mem_of_getLast? hab) a (by simp) rfl

/-- Two pending links that start at one node end at one. -/
theorem pending_unique (h : Chain next pending first last C) (hb : pending a b)
    (hb' : pending a b') : b = b' :=
  (h.hole a b hb).1.left_unique h.nodup (h.hole a b' hb').1

/-- A link leads to the node that comes next. -/
theorem follows_of_next (h : Chain next pending first last C) (ha : a ∈ C)
    (hn : next a = some b) : Follows C a b := by
  have hlast : C.getLast? ≠ some a := by
    rw [h.last_eq]
    rintro ⟨rfl⟩
    have := h.ends
    rw [hn] at this
    cases this
  obtain ⟨c, hc⟩ := exists_follows ha hlast
  rcases h.link a c hc with hlink | ⟨hnone, -⟩
  · rw [hn] at hlink
    cases hlink
    exact hc
  · rw [hn] at hnone
    cases hnone

/-- A chain whose first node is its last has only that node. -/
theorem eq_singleton (h : Chain next pending first first C) : C = [first] := by
  cases C with
  | nil => cases h.head_eq
  | cons x C =>
      obtain rfl : x = first := by simpa using h.head_eq
      cases C with
      | nil => rfl
      | cons y C => exact absurd rfl (h.ne_last (Or.inl ⟨rfl, rfl⟩))

/-- A first node without a link is the last one too, or its link is pending. -/
theorem ends_or_hole (h : Chain next pending first last C) (hnext : next first = none) :
    first = last ∨ ∃ b, pending first b := by
  by_cases hlast : C.getLast? = some first
  · left
    rw [h.last_eq] at hlast
    exact (Option.some.inj hlast).symm
  · obtain ⟨b, hb⟩ := exists_follows h.first_mem hlast
    rcases h.link first b hb with hlink | ⟨-, hpend⟩
    · rw [hnext] at hlink
      cases hlink
    · exact Or.inr ⟨b, hpend⟩

variable [DecidableEq α]

/-- Clearing the link of a node outside changes nothing. -/
theorem reset (h : Chain next pending first last C) (hn : n ∉ C) :
    Chain (Function.update next n none) pending first last C := by
  have hne : ∀ x ∈ C, Function.update next n none x = next x := by
    intro x hx
    refine Function.update_of_ne ?_ _ _
    intro heq
    subst heq
    exact hn hx
  refine ⟨h.nodup, h.head_eq, h.last_eq, ?_, ?_, ?_⟩
  · intro a b hab
    rw [hne a hab.mem_left]
    exact h.link a b hab
  · intro a b hab
    have hf := h.hole a b hab
    rw [hne a hf.1.mem_left]
    exact hf
  · rw [hne last h.last_mem]
    exact h.ends

omit [DecidableEq α] in
/-- A node from outside becomes the last; the link to it is pending. -/
theorem append (h : Chain next pending first last C) (hn : n ∉ C) (hnext : next n = none)
    (hp : ∀ a b, pending' a b ↔ pending a b ∨ (a = last ∧ b = n)) :
    Chain next pending' first n (C ++ [n]) := by
  refine ⟨?_, ?_, ?_, ?_, ?_, hnext⟩
  · rw [List.nodup_append]
    refine ⟨h.nodup, List.nodup_singleton n, ?_⟩
    rintro a ha b hb rfl
    obtain rfl : a = n := by simpa using hb
    exact hn ha
  · rw [List.head?_append, h.head_eq]
    rfl
  · exact List.getLast?_concat
  · intro a b hab
    rw [hp]
    rw [follows_concat, h.last_eq] at hab
    rcases hab with hab | ⟨hlast, rfl⟩
    · exact (h.link a b hab).imp_right fun hl => ⟨hl.1, Or.inl hl.2⟩
    · obtain rfl := Option.some.inj hlast
      exact Or.inr ⟨h.ends, Or.inr ⟨rfl, rfl⟩⟩
  · intro a b hab
    rw [follows_concat, h.last_eq]
    rcases (hp a b).mp hab with hab | ⟨rfl, rfl⟩
    · obtain ⟨hf, hnone⟩ := h.hole a b hab
      exact ⟨Or.inl hf, hnone⟩
    · exact ⟨Or.inr ⟨rfl, rfl⟩, h.ends⟩

/-- A pending link is made. -/
theorem fill (h : Chain next pending first last C) (hab : pending a b)
    (hp : ∀ x y, pending' x y ↔ pending x y ∧ ¬ (x = a ∧ y = b)) :
    Chain (Function.update next a (some b)) pending' first last C := by
  obtain ⟨hf, -⟩ := h.hole a b hab
  refine ⟨h.nodup, h.head_eq, h.last_eq, ?_, ?_, ?_⟩
  · intro x y hxy
    rw [hp]
    by_cases hx : x = a
    · subst hx
      left
      rw [Function.update_self, hf.left_unique h.nodup hxy]
    · rw [Function.update_of_ne hx]
      exact (h.link x y hxy).imp_right fun hl => ⟨hl.1, hl.2, fun h => hx h.1⟩
  · intro x y hxy
    obtain ⟨hold, hne⟩ := (hp x y).mp hxy
    obtain ⟨hfx, hnone⟩ := h.hole x y hold
    have hx : x ≠ a := by
      intro heq
      subst heq
      exact hne ⟨rfl, h.pending_unique hold hab⟩
    rw [Function.update_of_ne hx]
    exact ⟨hfx, hnone⟩
  · rw [Function.update_of_ne (h.ne_last hf).symm]
    exact h.ends

omit [DecidableEq α] in
/-- The first node leaves, if it has its link; nobody was about to write to it or to link it. -/
theorem uncons (h : Chain next pending first last C) (hnext : next first = some m) :
    ∃ C', C = first :: C' ∧ Chain next pending m last C' ∧
      ∀ a b, pending a b → a ≠ first ∧ b ≠ first := by
  have hf := h.follows_of_next h.first_mem hnext
  have hhead := h.head_eq
  have hnodup := h.nodup
  have hlast := h.last_eq
  cases C with
  | nil => cases hhead
  | cons x C =>
      obtain rfl : x = first := by simpa using hhead
      rw [List.nodup_cons] at hnodup
      have hm : C.head? = some m := by
        rcases hf with ⟨-, hm⟩ | hf
        · exact hm
        · exact absurd hf.mem_left hnodup.1
      have houtside : ∀ a b, pending a b → a ≠ x ∧ b ≠ x := by
        intro a b hab
        obtain ⟨hf, hnone⟩ := h.hole a b hab
        refine ⟨?_, ?_⟩
        · intro heq
          subst heq
          rw [hnext] at hnone
          cases hnone
        · intro heq
          subst heq
          exact hf.ne_head h.nodup rfl
      refine ⟨C, rfl, ⟨hnodup.2, hm, ?_, ?_, ?_, h.ends⟩, houtside⟩
      · cases C with
        | nil => cases hm
        | cons y C => exact hlast
      · intro a b hab
        exact h.link a b (Or.inr hab)
      · intro a b hab
        obtain ⟨hf, hnone⟩ := h.hole a b hab
        refine ⟨?_, hnone⟩
        rcases hf with ⟨hx, -⟩ | hf
        · exact absurd hx.symm (houtside a b hab).1
        · exact hf

end Chain

end Shclog.Lib
