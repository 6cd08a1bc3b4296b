import Shclog.Cpu.Siblings

/-! # What becomes of a file

A file that ends with a newline is read through, or it is malformed, or the parser never comes back
from it. Which of these it is can be read off the file. -/

namespace Shclog.Cpu

open Lib

variable {c : Content}

namespace Content

def NewlineTerminated (c : Content) : Prop := ∃ l, c.bytes = l ++ [newline]

/-- The file can be read through, whatever it is that comes after the items. -/
def Loose (c : Content) : Prop := ∃ is, siblingLists.Tokens c.bytes is []

/-- A range up to the largest number is come to. -/
def Endless (c : Content) : Prop :=
  ∃ is rest, siblingLists.Tokens c.bytes is rest ∧ ∃ i ∈ is, i.Endless

/-- Whether a range is in the way shows in a reading that got as far as it can. -/
theorem not_endless {is : List Item} {rest : List U8} (h : siblingLists.Tokens c.bytes is rest)
    (hfin : Lexicon.Tokens.Final siblingLists rest) (his : ∀ i ∈ is, ¬ i.Endless) :
    ¬ c.Endless := by
  intro ⟨js, rest', htok, j, hj, hend⟩
  obtain ⟨ks, rfl, -⟩ := h.of_final hfin htok
  exact his j (List.mem_append_left ks hj) hend

theorem not_loose {is : List Item} {rest : List U8} (h : siblingLists.Tokens c.bytes is rest)
    (hfin : Lexicon.Tokens.Final siblingLists rest) (hne : rest ≠ []) : ¬ c.Loose := by
  intro ⟨js, hjs⟩
  exact hne (h.final_unique hfin hjs Lexicon.Tokens.final_nil).2

/-- A newline is not part of an item. -/
theorem newlineTerminated_text {i : Item} {l l' : List U8} (h : l ++ i.text = l' ++ [newline]) :
    False := by
  have hlast : ∀ (n : Number) (m : List U8), m ++ n.digits ≠ l' ++ [newline] := by
    intro n m he
    have hmem : newline ∈ n.digits := by
      have hl := congrArg List.getLast? he
      rw [List.getLast?_append_of_ne_nil _ n.ne_nil, List.getLast?_concat] at hl
      exact List.mem_of_getLast? hl
    exact absurd (n.isDigit _ hmem) (by decide)
  cases i with
  | single n => exact hlast n l h
  | range a b =>
      refine hlast b (l ++ a.digits ++ [dash]) ?_
      rw [← h]
      simp [Item.text]

end Content

namespace Parse

/-- **What a file that ends with a newline comes to**, unless a range is in its way. -/
theorem reaches_done (hnl : c.NewlineTerminated) (hend : ¬ c.Endless) :
    (∃ is, siblingLists.Tokens c.bytes is [] ∧
      Reaches (Step c) start (.done (.ok (is.flatMap Item.siblings)))) ∨
    ¬ c.Loose ∧ Reaches (Step c) start (.done (.error .malformedFile)) := by
  obtain ⟨l, hl⟩ := hnl
  obtain ⟨is, rest, htok, hrest⟩ := Lexicon.Tokens.exists_final siblingLists c.bytes
  have hreach := reaches_tokens htok fun i hi he => hend ⟨is, rest, htok, i, hi, he⟩
  rcases hrest with rfl | ⟨i, rfl⟩ | hstuck
  · left
    rw [List.length_nil, Nat.sub_zero] at hreach
    exact ⟨is, htok, hreach.trans (.single (step_finish hl))⟩
  · obtain ⟨l', hl'⟩ := htok.suffix
    exact (Content.newlineTerminated_text (i := i) (hl'.trans hl)).elim
  · right
    have hat := At.of_suffix htok.suffix
    exact ⟨Content.not_loose htok (Lexicon.Tokens.final_of_stuck hstuck) hstuck.1,
      hreach.trans (.single (step_token hat hstuck.1 (token_of_stuck hat hstuck)))⟩

/-- The first range that is counted through for ever is come to. -/
theorem reaches_countsForever (h : c.Endless) :
    ∃ p, Reaches (Step c) start p ∧ CountsForever p := by
  obtain ⟨is, rest, htok, i, hi, he⟩ := h
  have hsome : (is.find? fun i => decide i.Endless).isSome := by
    rw [List.find?_isSome]
    exact ⟨i, hi, decide_eq_true he⟩
  obtain ⟨j, hj⟩ := Option.isSome_iff_exists.mp hsome
  obtain ⟨hend, pre, post, rfl, hpre⟩ := List.find?_eq_some_iff_append.mp hj
  obtain ⟨m, hbefore, hfrom⟩ := htok.split
  obtain ⟨d, t, rfl, hd, -⟩ := hfrom.uncons
  change j.Ends d at hd
  have hreach := reaches_tokens hbefore fun i hi => by simpa using hpre i hi
  obtain ⟨p, hp, hforever⟩ := reaches_endless (s := pre.flatMap Item.siblings) (t := d :: t)
    (of_decide_eq_true hend) (by simpa using hd) (At.of_suffix hbefore.suffix)
  exact ⟨p, hreach.trans hp, hforever⟩

theorem not_terminates (h : c.Endless) : ¬ Terminates (Step c) start := by
  obtain ⟨p, hreach, hp⟩ := reaches_countsForever h
  exact Terminates.not_of_progress (fun _ h => h.progress) hreach hp

/-- **The parser comes back** from a file that ends with a newline unless there is a range up to the
largest number in its way. -/
theorem terminates_iff (hnl : c.NewlineTerminated) : Terminates (Step c) start ↔ ¬ c.Endless := by
  constructor
  · intro hterm hend
    exact not_terminates hend hterm
  · intro hend
    rcases reaches_done hnl hend with ⟨is, -, h⟩ | ⟨-, h⟩
    · exact .of_halted deterministic h (halted_done _)
    · exact .of_halted deterministic h (halted_done _)

/-- `6-8,9` -/
def sixToEightAndNine : List Item :=
  [.range ⟨[0x36], by decide, by decide⟩ ⟨[0x38], by decide, by decide⟩,
    .single ⟨[0x39], by decide, by decide⟩]

theorem terminates_sixToEightAndNine : render sixToEightAndNine = bytesOf "6-8,9\n" ∧
    Terminates (Step ⟨render sixToEightAndNine, by decide⟩) start := by
  have hnl : Content.NewlineTerminated ⟨render sixToEightAndNine, by decide⟩ := exists_render _
  refine ⟨by decide +kernel, (terminates_iff hnl).mpr ?_⟩
  exact Content.not_endless (tokens_render (List.cons_ne_nil _ _)) Lexicon.Tokens.final_nil
    (by decide +kernel)

/-- `0-18446744073709551615`, and a newline. -/
def wholeRange : Content :=
  ⟨[0x30, 0x2d, 0x31, 0x38, 0x34, 0x34, 0x36, 0x37, 0x34, 0x34, 0x30, 0x37, 0x33, 0x37, 0x30,
    0x39, 0x35, 0x35, 0x31, 0x36, 0x31, 0x35, 0x0a], by decide⟩

/-- The range of all numbers is counted through for ever. -/
theorem not_terminates_wholeRange :
    wholeRange.NewlineTerminated ∧ ¬ Terminates (Step wholeRange) start := by
  refine ⟨⟨wholeRange.bytes.dropLast, by decide⟩, ?_⟩
  have hstep : Step wholeRange start () (.counting 22 1 (BitVec.allOnes 64) [0]) := rfl
  exact Terminates.not_of_progress (fun _ (h : CountsForever _) => h.progress) (.single hstep)
    ⟨_, _, _, _, rfl, by decide⟩

end Parse

end Shclog.Cpu
