import Mathlib.Data.List.TakeWhile
import Shclog.Cpu.Basic
import Shclog.Lib.Tokens

/-! # Lists of siblings

What a `thread_siblings_list` is made of, as a text of items: single numbers and ranges. A number
reaches as far as there are digits, and an item may be followed by whatever does not go on with it.
The well-formed lists are those whose delimiters are commas, and a newline at the end. -/

namespace Shclog.Cpu

open Lib

/-- A row of decimal digits. -/
structure Number where
  digits : List U8
  ne_nil : digits ≠ []
  isDigit : ∀ c ∈ digits, isDecimalDigit c = true

namespace Number

def value (n : Number) : Nat := decimal n.digits

/-- What `std::from_chars` makes of it, where the value is zero before. -/
def parsed (n : Number) : Usize := if n.value < 2 ^ 64 then BitVec.ofNat 64 n.value else 0

theorem ext_digits {m n : Number} (h : m.digits = n.digits) : m = n := by
  cases m
  cases n
  cases h
  rfl

end Number

/-- One number, or a range of them. -/
inductive Item where
  | single (n : Number)
  | range (a b : Number)

namespace Item

def text : Item → List U8
  | single n => n.digits
  | range a b => a.digits ++ dash :: b.digits

/-- What an item does not go on with. -/
def Ends : Item → U8 → Prop
  | single _, d => isDecimalDigit d = false ∧ d ≠ dash
  | range _ _, d => isDecimalDigit d = false

def numbers : Item → List Number
  | single n => [n]
  | range a b => [a, b]

/-- `a <= b`. -/
def Ordered : Item → Prop
  | single _ => True
  | range a b => a.value ≤ b.value

instance (i : Item) : Decidable i.Ordered := by
  cases i <;> unfold Ordered <;> infer_instance

/-- The numbers an item stands for. -/
def denotes : Item → List Nat
  | single n => [n.value]
  | range a b => List.range' a.value (b.value + 1 - a.value)

/-- The upper number of the range is the largest of its type. -/
def Endless : Item → Prop
  | single _ => False
  | range _ b => b.value = 2 ^ 64 - 1

instance (i : Item) : Decidable i.Endless := by
  cases i <;> unfold Endless <;> infer_instance

end Item

/-! ## Reading as far as it goes -/

/-- The digits at the start of a number and what is no digit. -/
theorem takeWhile_digits (n : Number) {t : List U8}
    (ht : ∀ d ∈ t.head?, isDecimalDigit d = false) :
    (n.digits ++ t).takeWhile isDecimalDigit = n.digits := by
  rw [List.takeWhile_append_of_pos n.isDigit]
  cases t with
  | nil => simp
  | cons d t => simp [ht d rfl]

theorem isDecimalDigit_dash : isDecimalDigit dash = false := rfl

/-- What begins with a number begins with no other. -/
theorem Number.unique {m n : Number} {t u : List U8}
    (ht : ∀ d ∈ t.head?, isDecimalDigit d = false) (hu : ∀ d ∈ u.head?, isDecimalDigit d = false)
    (h : m.digits ++ t = n.digits ++ u) : m = n ∧ t = u := by
  have hdigits : m.digits = n.digits := by
    rw [← takeWhile_digits m ht, h, takeWhile_digits n hu]
  rw [hdigits] at h
  exact ⟨Number.ext_digits hdigits, List.append_cancel_left h⟩

theorem Item.unique {i j : Item} {t u : List U8} (ht : ∀ d ∈ t.head?, i.Ends d)
    (hu : ∀ d ∈ u.head?, j.Ends d) (h : i.text ++ t = j.text ++ u) : i = j ∧ t = u := by
  have hdash : ∀ l : List U8, ∀ d ∈ (dash :: l).head?, isDecimalDigit d = false := by
    intro l d hd
    obtain rfl : dash = d := by simpa using hd
    exact isDecimalDigit_dash
  cases i with
  | single m =>
      cases j with
      | single n =>
          obtain ⟨rfl, rfl⟩ := Number.unique (fun d hd => (ht d hd).1) (fun d hd => (hu d hd).1) h
          exact ⟨rfl, rfl⟩
      | range a b =>
          simp only [text, List.append_assoc, List.cons_append] at h
          obtain ⟨rfl, rfl⟩ := Number.unique (fun d hd => (ht d hd).1) (hdash _) h
          exact absurd rfl (ht dash rfl).2
  | range a b =>
      cases j with
      | single n =>
          simp only [text, List.append_assoc, List.cons_append] at h
          obtain ⟨rfl, rfl⟩ := Number.unique (hdash _) (fun d hd => (hu d hd).1) h
          exact absurd rfl (hu dash rfl).2
      | range a' b' =>
          simp only [text, List.append_assoc, List.cons_append] at h
          obtain ⟨rfl, htail⟩ := Number.unique (hdash _) (hdash _) h
          obtain ⟨rfl, rfl⟩ := Number.unique ht hu (List.cons.inj htail).2
          exact ⟨rfl, rfl⟩

/-- How lists of siblings are written. -/
def siblingLists : Lexicon U8 Item where
  text := Item.text
  Ends := Item.Ends
  text_ne_nil i := by
    cases i with
    | single n => exact n.ne_nil
    | range a b => exact List.append_ne_nil_of_left_ne_nil a.ne_nil _
  unique := Item.unique

/-- A text begins with digits, unless it does not begin with an item. -/
theorem exists_number {l : List U8} (h : l.takeWhile isDecimalDigit ≠ []) :
    ∃ (n : Number) (t : List U8), l = n.digits ++ t ∧ ∀ d ∈ t.head?, isDecimalDigit d = false := by
  refine ⟨⟨l.takeWhile isDecimalDigit, h, fun c hc => List.mem_takeWhile_imp hc⟩,
    l.dropWhile isDecimalDigit, List.takeWhile_append_dropWhile.symm, ?_⟩
  intro d hd
  have := List.head?_dropWhile_not isDecimalDigit l
  rw [Option.mem_def] at hd
  simpa [hd] using this

/-- There is no item where there is no digit. -/
theorem stuck_of_not_digit {d : U8} {t : List U8} (h : isDecimalDigit d = false) :
    siblingLists.Stuck (d :: t) := by
  have hno : ∀ (n : Number) (u : List U8), d :: t ≠ n.digits ++ u := by
    intro n u he
    obtain ⟨a, l, hl⟩ := List.exists_cons_of_ne_nil n.ne_nil
    obtain rfl : d = a := by simpa [hl] using congrArg List.head? he
    exact absurd (n.isDigit d (hl ▸ List.mem_cons_self)) (by simp [h])
  refine ⟨List.cons_ne_nil d t, fun i u hread => ?_⟩
  cases i with
  | single n => exact hno n u hread.1
  | range a b => exact hno a (dash :: b.digits ++ u) (hread.1.trans (List.append_assoc _ _ _))

/-! ## Well-formed lists -/

/-- The items with commas between them and a newline at the end. -/
def render : List Item → List U8
  | [] => [newline]
  | [i] => i.text ++ [newline]
  | i :: is => i.text ++ comma :: render is

/-- `item (',' item)* '\n'`, where ranges do not run backwards and every number is a `usize`. -/
def WellFormed (c : List U8) : Prop :=
  ∃ is, is ≠ [] ∧ c = render is ∧ ∀ i ∈ is, i.Ordered ∧ ∀ n ∈ i.numbers, n.value < 2 ^ 64

theorem ends_comma (i : Item) : i.Ends comma := by
  cases i with
  | single n => exact ⟨rfl, by decide⟩
  | range a b => exact rfl

theorem ends_newline (i : Item) : i.Ends newline := by
  cases i with
  | single n => exact ⟨rfl, by decide⟩
  | range a b => exact rfl

theorem exists_render (is : List Item) : ∃ l, render is = l ++ [newline] := by
  fun_induction render is with
  | case1 => exact ⟨[], rfl⟩
  | case2 i => exact ⟨i.text, rfl⟩
  | case3 i is _ ih =>
      obtain ⟨l, hl⟩ := ih
      exact ⟨i.text ++ comma :: l, by rw [hl, List.append_assoc, List.cons_append]⟩

/-- A well-formed list is read through. -/
theorem tokens_render {is : List Item} (h : is ≠ []) : siblingLists.Tokens (render is) is [] := by
  induction is with
  | nil => exact absurd rfl h
  | cons i is ih =>
      cases is with
      | nil => exact .cons (ends_newline i) .nil
      | cons j is => exact .cons (ends_comma i) (ih (List.cons_ne_nil j is))

end Shclog.Cpu
