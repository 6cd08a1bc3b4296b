import Shclog.Cpu.Siblings

/-! # What the parser looks at

The loop steps over a byte after every item. It stays within the file as long as there is such a
byte, so what it needs is a file that does not end with an item. -/

namespace Shclog.Cpu

open Lib

variable {c : Content} {p p' : Parse}

/-- The file can be read up to an item with nothing after it. A range that is counted through for
ever comes before that. -/
def Content.CutOff (c : Content) : Prop :=
  ∃ is i, siblingLists.Tokens c.bytes is (siblingLists.text i) ∧ ∀ j ∈ is ++ [i], ¬ j.Endless

namespace Parse

/-- `content_it` has not passed `content_end`. -/
def InBounds (c : Content) : Parse → Prop
  | tokens it _ => it ≤ c.bytes.length
  | counting it _ _ _ => it ≤ c.bytes.length
  | done _ => True

/-- Whatever state is reached, `content_it` has not passed `content_end`, and the next step looks at
nothing but what was read, and gives `memchr` no negative length. -/
def Safe (c : Content) : Prop :=
  ∀ p, Reaches (Step c) start p → p.InBounds c ∧ ∀ f, next c p ≠ some (.fault f)

/-- What is known of the file where the parser is. -/
inductive Inv (c : Content) : Parse → Prop
  | tokens {it : Nat} {s : List Usize} {is : List Item} {rest : List U8} :
      siblingLists.Tokens c.bytes is rest → (∀ i ∈ is, ¬ i.Endless) → At c it rest →
      Inv c (.tokens it s)
  | counting {it : Nat} {x : Usize} {s : List Usize} {is : List Item} {a b : Number}
      {t : List U8} :
      siblingLists.Tokens c.bytes is ((Item.range a b).text ++ t) → (∀ i ∈ is, ¬ i.Endless) →
      (∀ d ∈ t.head?, (Item.range a b).Ends d) → At c it t → Inv c (.counting it x b.parsed s)
  | done {r : Except ListCpuCoresError (List Usize)} : Inv c (.done r)

theorem Inv.inBounds (h : Inv c p) : p.InBounds c := by
  cases h with
  | tokens _ _ hat =>
      have := hat.1
      show _ ≤ _
      omega
  | counting _ _ _ hat =>
      have := hat.1
      show _ ≤ _
      omega
  | done => trivial

theorem inv_start : Inv c start := .tokens .nil (by simp) At.zero

/-- After an item there is a byte to step over. -/
theorem Inv.after_item {it : Nat} {s : List Usize} {is : List Item} {i : Item} {t : List U8}
    (hcut : ¬ c.CutOff) (htok : siblingLists.Tokens c.bytes is (i.text ++ t))
    (hend : ∀ j ∈ is ++ [i], ¬ j.Endless) (ht : ∀ d ∈ t.head?, i.Ends d) (hat : At c it t) :
    Inv c (.tokens (it + 1) s) := by
  cases t with
  | nil =>
      rw [List.append_nil] at htok
      exact absurd ⟨is, i, htok, hend⟩ hcut
  | cons d t => exact .tokens (htok.append (.cons (ht d rfl) .nil)) hend (hat.append (l := [d]))

/-- A file that has an end, and does not end with an item, is gone through without a fault. -/
theorem Inv.progress (hne : c.bytes ≠ []) (hcut : ¬ c.CutOff) (h : Inv c p) :
    (∃ r, p = .done r) ∨ ∃ p', Step c p () p' ∧ Inv c p' := by
  cases h with
  | done => exact .inl ⟨_, rfl⟩
  | @counting it x s is a b t htok hend ht hat =>
      by_cases hxy : x ≤ b.parsed
      · exact .inr ⟨_, counting_step hxy, .counting htok hend ht hat⟩
      · refine .inr ⟨_, counting_exit hxy, Inv.after_item hcut htok ?_ ht hat⟩
        intro j hj
        rcases List.mem_append.mp hj with hj | hj
        · exact hend j hj
        · rw [List.mem_singleton.mp hj, Item.endless_iff]
          rw [BitVec.le_def] at hxy
          have := x.isLt
          omega
  | @tokens it s is rest htok hend hat =>
      right
      by_cases hrest : rest = []
      · obtain rfl : it = c.bytes.length := by
          have := hat.1
          rw [hrest, List.length_nil] at this
          exact this
        obtain ⟨l, b, hb⟩ := List.eq_nil_or_concat' c.bytes |>.resolve_left hne
        have hnext : next c (.tokens c.bytes.length s) = some (finish c s) := next_end
        rw [finish_eq hb] at hnext
        split at hnext
        · exact ⟨_, hnext, .done⟩
        · exact ⟨_, hnext, .done⟩
      · by_cases hread : ∃ i t, siblingLists.Reads rest i t
        · obtain ⟨i, t, rfl, ht⟩ := hread
          cases i with
          | single n =>
              refine ⟨_, step_token hat hrest (token_of_single n ht hat),
                Inv.after_item (i := .single n) hcut htok ?_ ht hat.append⟩
              intro j hj
              rcases List.mem_append.mp hj with hj | hj
              · exact hend j hj
              · rw [List.mem_singleton.mp hj]
                exact id
          | range a b =>
              exact ⟨_, step_token hat hrest (token_of_range a b ht hat),
                .counting htok hend ht hat.append⟩
        · push Not at hread
          exact ⟨_, step_token hat hrest (token_of_stuck hat ⟨hrest, hread⟩), .done⟩

theorem Inv.reaches (hne : c.bytes ≠ []) (hcut : ¬ c.CutOff) (h : Reaches (Step c) start p) :
    Inv c p := by
  obtain ⟨tr, h⟩ := h
  refine h.stable inv_start ?_
  intro p e p' hinv hs
  rcases hinv.progress hne hcut with ⟨r, rfl⟩ | ⟨q, hq, hinv'⟩
  · exact absurd hs (halted_done r e p')
  · rw [(deterministic _ _ _ _ _ hs hq).2]
    exact hinv'

/-- Of an empty file, the byte before the first one is looked at. -/
theorem not_safe_of_nil (h : c.bytes = []) : ¬ Safe c := by
  intro hsafe
  have hfault : next c start = some (.fault .indexOutOfBounds) := by
    show some (if 0 = c.bytes.length then finish c [] else token c 0 []) = _
    rw [h, List.length_nil, if_pos rfl, finish, h]
    rfl
  exact (hsafe start (.refl start)).2 _ hfault

/-- The end of a file that ends with an item is stepped over. -/
theorem not_safe_of_cutOff (h : c.CutOff) : ¬ Safe c := by
  intro hsafe
  obtain ⟨is, i, htok, hend⟩ := h
  have hat := At.of_suffix htok.suffix
  change At c (c.bytes.length - i.text.length) i.text at hat
  have hlast := reaches_item (c := c) (s := is.flatMap Item.siblings) (t := [])
    (hend i (List.mem_append_right is List.mem_cons_self)) (by simp) (by rwa [List.append_nil])
  have hreach := reaches_tokens htok fun j hj => hend j (List.mem_append_left [i] hj)
  have hin := (hsafe _ (hreach.trans hlast)).1
  have hle := htok.length_le
  change i.text.length ≤ _ at hle
  change _ + 1 ≤ _ at hin
  omega

/-- **The parser stays within what was read** of a file that is not empty and does not end with an
item, and of no other. -/
theorem safe_iff (c : Content) : Safe c ↔ c.bytes ≠ [] ∧ ¬ c.CutOff := by
  constructor
  · intro hsafe
    exact ⟨fun hnil => not_safe_of_nil hnil hsafe, fun hcut => not_safe_of_cutOff hcut hsafe⟩
  · intro ⟨hne, hcut⟩ p hreach
    have hinv := Inv.reaches hne hcut hreach
    refine ⟨hinv.inBounds, ?_⟩
    intro f hf
    rcases hinv.progress hne hcut with ⟨r, rfl⟩ | ⟨q, hq, -⟩
    · cases hf
    · have hpure : Checked.fault f = pure q := Option.some.inj (hf.symm.trans hq)
      exact Checked.fault_ne_pure f q hpure

/-- Of the one byte `5`, the second is stepped over. -/
theorem not_safe_five : ¬ Safe ⟨[0x35], by decide⟩ := by
  intro hsafe
  have hreach : Reaches (Step ⟨[0x35], by decide⟩) start (.tokens 2 [5]) := .single (e := ()) rfl
  exact absurd (show 2 ≤ 1 from (hsafe _ hreach).1) (by decide)

end Parse

end Shclog.Cpu
