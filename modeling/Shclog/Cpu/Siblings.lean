import Shclog.Cpu.Parse

/-! # The parser, file by file

The parser goes through a file as far as the file can be read as items and delimiters. What becomes
of it there depends on what it has come to: on nothing, on an item that is cut off, on something
that is no item, or, before any of these, on a range that it counts through for ever. -/

namespace Shclog.Cpu

open Lib

variable {c : Content} {it : Nat} {s : List Usize} {rest t : List U8} {is : List Item}

/-- The numbers from `x` to `y`. -/
def counted (x y : Usize) : List Usize :=
  (List.range' x.toNat (y.toNat + 1 - x.toNat)).map (BitVec.ofNat 64)

theorem counted_cons {x y : Usize} (h : x ≤ y) (hy : y.toNat + 1 < 2 ^ 64) :
    counted x y = x :: counted (x + 1) y := by
  rw [BitVec.le_def] at h
  have hsucc := Usize.toNat_succ (x := x) (by omega)
  have hlen : y.toNat + 1 - x.toNat = y.toNat + 1 - (x + 1).toNat + 1 := by omega
  unfold counted
  rw [hlen, List.range'_succ, List.map_cons, BitVec.ofNat_toNat, BitVec.setWidth_eq, hsucc]

theorem counted_nil {x y : Usize} (h : ¬ x ≤ y) : counted x y = [] := by
  rw [BitVec.le_def] at h
  unfold counted
  rw [show y.toNat + 1 - x.toNat = 0 by omega]
  rfl

namespace Item

/-- What the parser makes of an item. -/
def siblings : Item → List Usize
  | single n => [n.parsed]
  | range a b => a.parsed :: counted (a.parsed + 1) b.parsed

theorem endless_iff {a b : Number} : (range a b).Endless ↔ b.parsed.toNat + 1 = 2 ^ 64 := by
  change b.value = 2 ^ 64 - 1 ↔ _
  unfold Number.parsed
  split
  · next h =>
      rw [BitVec.toNat_ofNat, Nat.mod_eq_of_lt h]
      omega
  · next h =>
      rw [show (0 : Usize).toNat = 0 from rfl]
      omega

/-- **What is well-formed is what the parser makes of it**, unless it reaches to the largest
number. -/
theorem siblings_eq {i : Item} (hord : i.Ordered) (h : ∀ n ∈ i.numbers, n.value < 2 ^ 64 - 1) :
    i.siblings = i.denotes.map (BitVec.ofNat 64) := by
  cases i with
  | single n =>
      have hn := h n (by simp [numbers])
      simp only [siblings, denotes, Number.parsed, if_pos (show n.value < 2 ^ 64 by omega),
        List.map_cons, List.map_nil]
  | range a b =>
      have ha := h a (by simp [numbers])
      have hb := h b (by simp [numbers])
      change a.value ≤ b.value at hord
      have hlen : b.value + 1 - a.value = b.value + 1 - (a.value + 1) + 1 := by omega
      have hparsed : ∀ n : Number, n.value < 2 ^ 64 - 1 →
          n.parsed = BitVec.ofNat 64 n.value := fun n hn => if_pos (by omega)
      have hnat : ∀ n : Number, n.value < 2 ^ 64 - 1 →
          (BitVec.ofNat 64 n.value).toNat = n.value := by
        intro n hn
        rw [BitVec.toNat_ofNat]
        exact Nat.mod_eq_of_lt (by omega)
      have hsucc := Usize.toNat_succ (x := BitVec.ofNat 64 a.value) (by rw [hnat a ha]; omega)
      simp only [siblings, denotes, counted]
      rw [hparsed a ha, hparsed b hb, hsucc, hnat a ha, hnat b hb, hlen, List.range'_succ,
        List.map_cons]

end Item

theorem At.of_suffix (h : rest <:+ c.bytes) : At c (c.bytes.length - rest.length) rest := by
  have := h.length_le
  exact ⟨by omega, (List.suffix_iff_eq_drop.mp h).symm⟩

theorem At.zero : At c 0 c.bytes := ⟨Nat.zero_add _, List.drop_zero⟩

namespace Parse

theorem deterministic : Deterministic (Step c) := by
  intro p _ p₁ _ p₂ h₁ h₂
  exact ⟨rfl, Checked.pure_inj.mp (Option.some.inj (h₁.symm.trans h₂))⟩

theorem halted_done (r : Except ListCpuCoresError (List Usize)) : Halted (Step c) (.done r) := by
  intro _ _ h
  cases h

/-! ## The loop over a range -/

theorem counting_step {x y : Usize} (h : x ≤ y) :
    Step c (.counting it x y s) () (.counting it (x + 1) y (s ++ [x])) := if_pos h

theorem counting_exit {x y : Usize} (h : ¬ x ≤ y) :
    Step c (.counting it x y s) () (.tokens (it + 1) s) := if_neg h

/-- **The loop over a range** comes to its end if there is a number after it. -/
theorem counting_reaches {x y : Usize} (hy : y.toNat + 1 < 2 ^ 64) :
    Reaches (Step c) (.counting it x y s) (.tokens (it + 1) (s ++ counted x y)) := by
  induction hn : y.toNat + 1 - x.toNat generalizing x s with
  | zero =>
      have hnot : ¬ x ≤ y := by
        rw [BitVec.le_def]
        omega
      rw [counted_nil hnot, List.append_nil]
      exact .single (counting_exit hnot)
  | succ n ih =>
      have hle : x ≤ y := by
        rw [BitVec.le_def]
        omega
      have hsucc := Usize.toNat_succ (x := x) (by omega)
      have hrest := ih (x := x + 1) (s := s ++ [x]) (by omega)
      rw [List.append_assoc, List.singleton_append, ← counted_cons hle hy] at hrest
      exact (Reaches.single (counting_step hle)).trans hrest

/-- In the loop over a range up to the largest number. -/
def CountsForever (p : Parse) : Prop :=
  ∃ it x y s, p = .counting it x y s ∧ y.toNat + 1 = 2 ^ 64

theorem CountsForever.progress {p : Parse} (h : CountsForever p) :
    ∃ e p', Step c p e p' ∧ CountsForever p' := by
  obtain ⟨it, x, y, s, rfl, hy⟩ := h
  have hle : x ≤ y := by
    rw [BitVec.le_def]
    have := x.isLt
    omega
  exact ⟨(), _, counting_step hle, it, x + 1, y, s ++ [x], rfl, hy⟩

/-! ## Token by token -/

theorem step_token {p : Parse} (h : At c it rest) (hne : rest ≠ []) (ht : token c it s = pure p) :
    Step c (.tokens it s) () p := by
  have hlen := h.1
  have := List.length_pos_iff.mpr hne
  show some _ = _
  rw [if_neg (by omega), ht]

/-- An item that the loop over a range ends for is taken, and one byte after it is stepped over. -/
theorem reaches_item {i : Item} (hend : ¬ i.Endless) (ht : ∀ d ∈ t.head?, i.Ends d)
    (h : At c it (i.text ++ t)) :
    Reaches (Step c) (.tokens it s) (.tokens (it + i.text.length + 1) (s ++ i.siblings)) := by
  have hne := List.append_ne_nil_of_left_ne_nil (siblingLists.text_ne_nil i) t
  cases i with
  | single n => exact .single (step_token h hne (token_of_single n ht h))
  | range a b =>
      rw [Item.endless_iff] at hend
      have hcount : Reaches (Step c)
          (.counting (it + (Item.range a b).text.length) (a.parsed + 1) b.parsed (s ++ [a.parsed]))
          _ := counting_reaches (by omega)
      rw [List.append_assoc, List.singleton_append] at hcount
      exact (Reaches.single (step_token h hne (token_of_range a b ht h))).trans hcount

theorem reaches_endless {i : Item} (hend : i.Endless) (ht : ∀ d ∈ t.head?, i.Ends d)
    (h : At c it (i.text ++ t)) :
    ∃ p, Reaches (Step c) (.tokens it s) p ∧ CountsForever p := by
  have hne := List.append_ne_nil_of_left_ne_nil (siblingLists.text_ne_nil i) t
  cases i with
  | single n => exact hend.elim
  | range a b =>
      exact ⟨_, .single (step_token h hne (token_of_range a b ht h)), _, _, _, _, rfl,
        Item.endless_iff.mp hend⟩

/-- **As far as a file can be read** the loop over it goes, if no range is in its way. -/
theorem reaches_tokens (h : siblingLists.Tokens c.bytes is rest) (hend : ∀ i ∈ is, ¬ i.Endless) :
    Reaches (Step c) start
      (.tokens (c.bytes.length - rest.length) (is.flatMap Item.siblings)) := by
  have hstep : ∀ js i d t, i ∈ is → siblingLists.Ends i d →
      siblingLists.text i ++ d :: t <:+ c.bytes →
      Reaches (Step c)
        (.tokens (c.bytes.length - (siblingLists.text i ++ d :: t).length)
          (js.flatMap Item.siblings))
        (.tokens (c.bytes.length - t.length) ((js ++ [i]).flatMap Item.siblings)) := by
    intro js i d t hi hd hsuffix
    change Item.Ends i d at hd
    change i.text ++ d :: t <:+ c.bytes at hsuffix
    have hat := At.of_suffix hsuffix
    have hitem := reaches_item (s := js.flatMap Item.siblings) (hend i hi)
      (t := d :: t) (by simpa using hd) hat
    have hlen : c.bytes.length - (i.text ++ d :: t).length + i.text.length + 1
        = c.bytes.length - t.length := by
      have := hsuffix.length_le
      simp only [List.length_append, List.length_cons] at this ⊢
      omega
    rw [hlen] at hitem
    rw [List.flatMap_append, List.flatMap_singleton]
    exact hitem
  have hrun := h.reaches
    (f := fun js t => Parse.tokens (c.bytes.length - t.length) (js.flatMap Item.siblings)) hstep []
  rw [Nat.sub_self] at hrun
  exact hrun

/-! ## To the end of a file -/

theorem finish_eq {b : U8} {l : List U8} (h : c.bytes = l ++ [b]) :
    finish c s = if b ≠ newline then pure (.done (.error .malformedFile))
      else pure (.done (.ok s)) := by
  have hat : At c (0 + l.length) [b] := At.append (h ▸ At.zero)
  rw [Nat.zero_add] at hat
  have hlast : (c.bytes.length - 1 : Int) = (l.length : Nat) := by
    rw [h, List.length_append, List.length_singleton]
    omega
  unfold finish
  rw [hlast, hat.read, pure_bind]

theorem next_end : next c (.tokens c.bytes.length s) = some (finish c s) := by
  show some _ = _
  rw [if_pos rfl]

theorem step_finish {l : List U8} (h : c.bytes = l ++ [newline]) :
    Step c (.tokens c.bytes.length s) () (.done (.ok s)) := by
  rw [Step, next_end, finish_eq h, if_neg (not_not.mpr rfl)]

end Parse

end Shclog.Cpu
