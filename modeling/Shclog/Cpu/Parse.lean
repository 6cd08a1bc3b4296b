import Shclog.Cpu.Grammar

/-! # The parser, token by token

What the loop over a file does at a position is said by what is left of the file there. Where an
item is, the loop takes it, whatever it is followed by, and steps over one byte; where there is
none, the file is malformed. -/

namespace Shclog.Cpu

open Lib

variable {c : Content} {it : Nat} {s : List Usize} {rest t : List U8}

/-! ## The library -/

theorem fromChars_number (n : Number) (ht : ∀ d ∈ t.head?, isDecimalDigit d = false) :
    (fromChars (n.digits ++ t) 0).ptr = n.digits.length ∧
      (fromChars (n.digits ++ t) 0).value = n.parsed := by
  unfold fromChars Number.parsed Number.value
  rw [takeWhile_digits n ht]
  simp only [if_neg n.ne_nil]
  split
  · exact ⟨rfl, rfl⟩
  · exact ⟨rfl, rfl⟩

theorem fromChars_nil (h : rest.takeWhile isDecimalDigit = []) : (fromChars rest 0).ptr = 0 := by
  rw [fromChars, if_pos h]

/-- What comes before the next comma. -/
def window (l : List U8) : List U8 := l.takeWhile (· ≠ comma)

theorem window_prefix (l : List U8) : l.take (window l).length = window l :=
  List.prefix_iff_eq_take.mp (List.takeWhile_prefix _) |>.symm

theorem length_window_le (l : List U8) : (window l).length ≤ l.length :=
  (List.takeWhile_prefix _).length_le

theorem head_window {d : U8} (h : d ∈ (window t).head?) : d ∈ t.head? := by
  cases t with
  | nil => exact h
  | cons a t =>
      unfold window at h
      rw [List.takeWhile_cons] at h
      split at h
      · exact h
      · simp at h

theorem window_no_digit (h : t.takeWhile isDecimalDigit = []) :
    (window t).takeWhile isDecimalDigit = [] := by
  cases t with
  | nil => rfl
  | cons d t =>
      have hd : isDecimalDigit d = false := by
        by_contra hd
        rw [Bool.not_eq_false] at hd
        simp [hd] at h
      unfold window
      rw [List.takeWhile_cons]
      split
      · simp [hd]
      · rfl

theorem window_number (n : Number) (t : List U8) :
    window (n.digits ++ t) = n.digits ++ window t := by
  apply List.takeWhile_append_of_pos
  intro d hd
  rw [decide_eq_true_eq]
  intro hcomma
  have := n.isDigit d hd
  rw [hcomma] at this
  exact absurd this (by decide)

theorem window_dash (t : List U8) : window (dash :: t) = dash :: window t := rfl

theorem memchr_comma (l : List U8) (it : Nat) :
    ((memchr l comma).map (it + ·)).getD (it + l.length) = it + (window l).length := by
  have hlen : (window l).length = (memchr l comma).getD l.length := by
    unfold window memchr List.idxOf?
    rw [← List.findIdx_eq_getD_findIdx?, List.takeWhile_eq_take_findIdx_not, List.length_take,
      Nat.min_eq_left List.findIdx_le_length]
    congr 1
    funext a
    simp [beq_eq_decide]
  rw [hlen]
  cases memchr l comma <;> rfl

/-! ## What is looked at -/

/-- `rest` is what is left of the file from `it` on. -/
def At (c : Content) (it : Nat) (rest : List U8) : Prop :=
  it + rest.length = c.bytes.length ∧ c.bytes.drop it = rest

theorem At.drop (h : At c it rest) {k : Nat} (hk : k ≤ rest.length) :
    At c (it + k) (rest.drop k) := by
  obtain ⟨hlen, rfl⟩ := h
  refine ⟨?_, ?_⟩
  · rw [List.length_drop]
    omega
  · rw [List.drop_drop]

theorem At.append {l : List U8} (h : At c it (l ++ rest)) : At c (it + l.length) rest := by
  have := h.drop (k := l.length) (by simp)
  rwa [List.drop_left] at this

theorem At.span (h : At c it rest) {k : Nat} (hk : k ≤ rest.length) :
    c.span it (it + k) = pure (rest.take k) := by
  have := h.1
  unfold Content.span
  rw [Checked.assert_true _ ⟨by omega, by omega⟩, pure_bind, h.2]
  congr 2
  omega

theorem At.span_window (h : At c it rest) :
    c.span it (it + (window rest).length) = pure (window rest) := by
  rw [h.span (length_window_le rest), window_prefix]

theorem At.read {b : U8} (h : At c it (b :: rest)) : c.read it = pure b := by
  have hb : c.bytes[it]? = some b := by
    rw [← List.head?_drop, h.2]
    rfl
  rw [Content.read, if_pos (by omega), Int.toNat_natCast, hb]

namespace Parse

/-! ## One token -/

theorem token_eq (h : At c it rest) :
    token c it s =
      if it + (fromChars (window rest) 0).ptr = it then pure (.done (.error .malformedFile))
      else handleRange c (it + (fromChars (window rest) 0).ptr) (it + (window rest).length)
        (fromChars (window rest) 0).value (s ++ [(fromChars (window rest) 0).value]) := by
  have hlen := h.1
  have hle := c.length_le
  have hsub : (c.bytes.length - it : Int) = (rest.length : Nat) := by omega
  have hrange : IntType.usize.InRange (rest.length : Nat) :=
    IntType.inRange_of_le (by omega) (by
      have : IntType.usize.max = 2 ^ 64 - 1 := rfl
      omega)
  unfold token
  dsimp only
  rw [hsub, Eval.intCast_of_inRange hrange, pure_bind]
  simp only [Int.toNat_natCast]
  rw [h.span le_rfl, pure_bind, List.take_length, ← hlen, memchr_comma, h.span_window, pure_bind]

/-- Nothing but a number makes a token. -/
theorem token_of_no_digit (h : At c it rest) (hdigit : rest.takeWhile isDecimalDigit = []) :
    token c it s = pure (.done (.error .malformedFile)) := by
  rw [token_eq h, fromChars_nil (window_no_digit hdigit), Nat.add_zero, if_pos rfl]

theorem token_of_number (n : Number) (ht : ∀ d ∈ t.head?, isDecimalDigit d = false)
    (h : At c it (n.digits ++ t)) :
    token c it s = handleRange c (it + n.digits.length)
      (it + n.digits.length + (window t).length) n.parsed (s ++ [n.parsed]) := by
  have hpos := List.length_pos_iff.mpr n.ne_nil
  obtain ⟨hptr, hvalue⟩ := fromChars_number n fun d hd => ht d (head_window hd)
  rw [token_eq h, window_number, hptr, hvalue,
    if_neg (by omega), List.length_append, Nat.add_assoc]

/-- Without a dash there is no range. -/
theorem handleRange_of_no_dash {x : Usize} (h : At c it t) (hdash : ∀ d ∈ t.head?, d ≠ dash) :
    handleRange c it (it + (window t).length) x s = pure (.tokens (it + 1) s) := by
  unfold handleRange
  split
  · rfl
  · next hne =>
      cases t with
      | nil => exact absurd rfl hne
      | cons d t => rw [h.read, pure_bind, if_pos (hdash d rfl)]

theorem handleRange_of_dash {x : Usize} (h : At c it (dash :: t)) :
    handleRange c it (it + (window (dash :: t)).length) x s =
      if it + 1 + (fromChars (window t) 0).ptr = it + 1 then pure (.done (.error .malformedFile))
      else pure (.counting (it + 1 + (fromChars (window t) 0).ptr) (x + 1)
        (fromChars (window t) 0).value s) := by
  have hafter : At c (it + 1) t := At.append (l := [dash]) h
  have hlen : it + (window (dash :: t)).length = it + 1 + (window t).length := by
    rw [window_dash, List.length_cons]
    omega
  rw [hlen, handleRange, if_neg (by omega), h.read, pure_bind, if_neg (not_not.mpr rfl)]
  dsimp only
  rw [hafter.span_window, pure_bind]

/-- **A single number** is taken. -/
theorem token_of_single (n : Number) (ht : ∀ d ∈ t.head?, (Item.single n).Ends d)
    (h : At c it (n.digits ++ t)) :
    token c it s = pure (.tokens (it + n.digits.length + 1) (s ++ [n.parsed])) := by
  rw [token_of_number n (fun d hd => (ht d hd).1) h,
    handleRange_of_no_dash h.append fun d hd => (ht d hd).2]

/-- **A range** is about to be counted through. -/
theorem token_of_range (a b : Number) (ht : ∀ d ∈ t.head?, (Item.range a b).Ends d)
    (h : At c it ((Item.range a b).text ++ t)) :
    token c it s = pure (.counting (it + (Item.range a b).text.length) (a.parsed + 1) b.parsed
      (s ++ [a.parsed])) := by
  have hpos := List.length_pos_iff.mpr b.ne_nil
  obtain ⟨hptr, hvalue⟩ := fromChars_number b (t := window t) fun d hd => ht d (head_window hd)
  simp only [Item.text, List.append_assoc, List.cons_append] at h
  have hdash : ∀ d ∈ (dash :: (b.digits ++ t)).head?, isDecimalDigit d = false := by
    intro d hd
    obtain rfl : dash = d := by simpa using hd
    exact isDecimalDigit_dash
  rw [token_of_number a hdash h, handleRange_of_dash h.append, window_number, hptr, hvalue,
    if_neg (by omega)]
  simp only [Item.text, List.length_append, List.length_cons]
  congr 2
  omega

/-- **What does not begin with an item is malformed.** -/
theorem token_of_stuck (h : At c it rest) (hstuck : siblingLists.Stuck rest) :
    token c it s = pure (.done (.error .malformedFile)) := by
  by_cases hdigit : rest.takeWhile isDecimalDigit = []
  · exact token_of_no_digit h hdigit
  · obtain ⟨a, t, rfl, ht⟩ := exists_number hdigit
    -- the number is no item by itself, so a dash comes after it
    obtain ⟨t, rfl⟩ : ∃ u, t = dash :: u := by
      by_contra hno
      refine hstuck.2 (.single a) t ⟨rfl, fun d hd => ⟨ht d hd, ?_⟩⟩
      rintro rfl
      cases t with
      | nil => cases hd
      | cons e u =>
          obtain rfl : e = dash := by simpa using hd
          exact hno ⟨u, rfl⟩
    -- and no number after the dash
    have hnone : t.takeWhile isDecimalDigit = [] := by
      by_contra hb
      obtain ⟨b, u, rfl, hu⟩ := exists_number hb
      refine hstuck.2 (.range a b) u ⟨?_, hu⟩
      show _ = (a.digits ++ dash :: b.digits) ++ u
      rw [List.append_assoc, List.cons_append]
    rw [token_of_number a ht h, handleRange_of_dash h.append,
      fromChars_nil (window_no_digit hnone), Nat.add_zero, if_pos rfl]

end Parse

end Shclog.Cpu
