import Mathlib.Data.List.Basic
import Shclog.Lib.Run

/-! # Texts of items and delimiters

A text is read item by item. An item reaches as far as it can: it says itself which characters end
it. The one character after an item is a delimiter, which is stepped over. Such a reading is taken
from the left and never has a choice, so it is known by how far it gets: it is through with the
text, or it comes to an item with nothing after it, or to something that is no item at all. -/

namespace Shclog.Lib

universe u v

/-- How items are written, and what ends them. -/
structure Lexicon (α : Type u) (ι : Type v) where
  text : ι → List α
  Ends : ι → α → Prop
  text_ne_nil (i : ι) : text i ≠ []
  /-- What begins with an item begins with no other. -/
  unique {i j : ι} {t u : List α} : (∀ d ∈ t.head?, Ends i d) → (∀ d ∈ u.head?, Ends j d) →
    text i ++ t = text j ++ u → i = j ∧ t = u

namespace Lexicon

variable {α : Type u} {ι : Type v} (L : Lexicon α ι)

/-- The text begins with the item, and `t` is what comes after it. -/
def Reads (c : List α) (i : ι) (t : List α) : Prop :=
  c = L.text i ++ t ∧ ∀ d ∈ t.head?, L.Ends i d

/-- `c` begins with the items, each with a delimiter after it, and `rest` is what is left then. -/
inductive Tokens : List α → List ι → List α → Prop
  | nil {c : List α} : Tokens c [] c
  | cons {i : ι} {d : α} {c rest : List α} {is : List ι} :
      L.Ends i d → Tokens c is rest → Tokens (L.text i ++ d :: c) (i :: is) rest

/-- There is something, but it does not begin with an item. -/
def Stuck (c : List α) : Prop := c ≠ [] ∧ ∀ i t, ¬ L.Reads c i t

variable {L} {c m rest rest' t t' : List α} {i j : ι} {is js : List ι}

theorem Reads.ne_nil (h : L.Reads c i t) : c ≠ [] := by
  rw [h.1]
  exact List.append_ne_nil_of_left_ne_nil (L.text_ne_nil i) t

theorem Reads.unique (h : L.Reads c i t) (h' : L.Reads c j t') : i = j ∧ t = t' :=
  L.unique h.2 h'.2 (h.1.symm.trans h'.1)

theorem reads_cons {d : α} (h : L.Ends i d) : L.Reads (L.text i ++ d :: c) i (d :: c) :=
  ⟨rfl, by simpa using h⟩

namespace Tokens

theorem append (h₁ : L.Tokens c is m) (h₂ : L.Tokens m js rest) : L.Tokens c (is ++ js) rest := by
  induction h₁ with
  | nil => exact h₂
  | cons hd _ ih => exact .cons hd (ih h₂)

theorem suffix (h : L.Tokens c is rest) : rest <:+ c := by
  induction h with
  | nil => exact List.suffix_rfl
  | @cons i d c _ _ _ _ ih => exact ih.trans ((List.suffix_cons d c).trans (List.suffix_append _ _))

theorem length_le (h : L.Tokens c is rest) : rest.length ≤ c.length := h.suffix.length_le

theorem nil_iff : L.Tokens c [] rest ↔ rest = c := by
  refine ⟨fun h => ?_, fun h => h ▸ .nil⟩
  cases h
  rfl

/-- The first item of a reading. -/
theorem uncons (h : L.Tokens c (i :: is) rest) :
    ∃ d c', c = L.text i ++ d :: c' ∧ L.Ends i d ∧ L.Tokens c' is rest := by
  cases h with
  | cons hd htok => exact ⟨_, _, rfl, hd, htok⟩

/-- A reading splits wherever its items do. -/
theorem split (h : L.Tokens c (is ++ js) rest) : ∃ m, L.Tokens c is m ∧ L.Tokens m js rest := by
  induction is generalizing c with
  | nil => exact ⟨c, .nil, h⟩
  | cons i is ih =>
      obtain ⟨d, c', rfl, hd, htok⟩ := h.uncons
      obtain ⟨m, h₁, h₂⟩ := ih htok
      exact ⟨m, .cons hd h₁, h₂⟩

/-- **Of two readings of a text, one goes on from where the other one is.** -/
theorem comparable (h₁ : L.Tokens c is rest) (h₂ : L.Tokens c js rest') :
    (∃ ks, js = is ++ ks ∧ L.Tokens rest ks rest') ∨
      ∃ ks, is = js ++ ks ∧ L.Tokens rest' ks rest := by
  induction h₁ generalizing js with
  | nil => exact .inl ⟨js, rfl, h₂⟩
  | @cons i d c rest is hd htok ih =>
      cases js with
      | nil =>
          obtain rfl := nil_iff.mp h₂
          exact .inr ⟨i :: is, rfl, .cons hd htok⟩
      | cons j js =>
          obtain ⟨d', c', hc, hd', htok'⟩ := h₂.uncons
          obtain ⟨rfl, ht⟩ := (reads_cons hd).unique ⟨hc, by simpa using hd'⟩
          obtain ⟨-, rfl⟩ := List.cons.inj ht
          exact (ih htok').imp (fun ⟨ks, he, h⟩ => ⟨ks, congrArg (i :: ·) he, h⟩)
            fun ⟨ks, he, h⟩ => ⟨ks, congrArg (i :: ·) he, h⟩

/-- From here no reading gets any further. -/
def Final (L : Lexicon α ι) (rest : List α) : Prop := ∀ ks rest', L.Tokens rest ks rest' → ks = []

theorem final_nil : Final L [] := by
  intro ks rest' h
  cases ks with
  | nil => rfl
  | cons i ks =>
      obtain ⟨d, c', hc, -, -⟩ := h.uncons
      exact absurd hc.symm (by simp)

theorem final_of_stuck (h : L.Stuck rest) : Final L rest := by
  intro ks rest' htok
  cases ks with
  | nil => rfl
  | cons j ks =>
      obtain ⟨d, c', hc, hd, -⟩ := htok.uncons
      exact absurd ⟨hc, by simpa using hd⟩ (h.2 j (d :: c'))

/-- A reading that got as far as it can is the only one that did, and all others are on its way. -/
theorem of_final (h₁ : L.Tokens c is rest) (hfin : Final L rest) (h₂ : L.Tokens c js rest') :
    ∃ ks, is = js ++ ks ∧ L.Tokens rest' ks rest := by
  rcases h₁.comparable h₂ with ⟨ks, he, h⟩ | hon
  · obtain rfl := hfin _ _ h
    rw [List.append_nil] at he
    obtain rfl := nil_iff.mp h
    exact ⟨[], by rw [he, List.append_nil], .nil⟩
  · exact hon

theorem final_unique (h₁ : L.Tokens c is rest) (hfin : Final L rest) (h₂ : L.Tokens c js rest')
    (hfin' : Final L rest') : is = js ∧ rest = rest' := by
  obtain ⟨ks, rfl, h⟩ := h₁.of_final hfin h₂
  obtain rfl := hfin' _ _ h
  obtain rfl := nil_iff.mp h
  exact ⟨List.append_nil js, rfl⟩

/-- **A text is read through**, or up to an item with nothing after it, or to where there is none. -/
theorem exists_final (L : Lexicon α ι) (c : List α) : ∃ is rest, L.Tokens c is rest ∧
    (rest = [] ∨ (∃ i, rest = L.text i) ∨ L.Stuck rest) := by
  induction hn : c.length using Nat.strongRecOn generalizing c with
  | _ n ih =>
      by_cases hread : ∃ i t, L.Reads c i t
      · obtain ⟨i, t, rfl, hends⟩ := hread
        cases t with
        | nil => exact ⟨[], _, .nil, .inr (.inl ⟨i, List.append_nil _⟩)⟩
        | cons d t =>
            rw [List.length_append, List.length_cons] at hn
            obtain ⟨is, rest, htok, hrest⟩ := ih t.length (by omega) t rfl
            exact ⟨i :: is, rest, .cons (hends d rfl) htok, hrest⟩
      · cases c with
        | nil => exact ⟨[], [], .nil, .inl rfl⟩
        | cons a c =>
            push Not at hread
            exact ⟨[], a :: c, .nil, .inr (.inr ⟨List.cons_ne_nil a c, hread⟩)⟩

/-- **Reading by steps.** A system that goes past each of the items with its delimiter goes past
them all. -/
theorem reaches {σ ε : Type*} {step : σ → ε → σ → Prop} {f : List ι → List α → σ}
    (h : L.Tokens c is rest)
    (hstep : ∀ js i d t, i ∈ is → L.Ends i d → L.text i ++ d :: t <:+ c →
      Reaches step (f js (L.text i ++ d :: t)) (f (js ++ [i]) t)) (js : List ι) :
    Reaches step (f js c) (f (js ++ is) rest) := by
  induction h generalizing js with
  | nil =>
      rw [List.append_nil]
      exact .refl _
  | @cons i d c rest is hd _ ih =>
      have hsuffix : c <:+ L.text i ++ d :: c :=
        (List.suffix_cons d c).trans (List.suffix_append _ _)
      have hon := ih (fun js i' d t hi he ht =>
        hstep js i' d t (List.mem_cons_of_mem i hi) he (ht.trans hsuffix)) (js ++ [i])
      rw [List.append_assoc, List.singleton_append] at hon
      exact (hstep js i d c List.mem_cons_self hd List.suffix_rfl).trans hon

end Tokens

end Lexicon

end Shclog.Lib
