import Mathlib.Data.List.TakeWhile
import Shclog.Bench.Report.Write

/-! # Reading a report

What `write` has written can be read again: the number before the space, the tenth after the point,
and the unit by its symbol. That is what `fit` found, and it is the value up to less than a tenth
of it. -/

namespace Shclog.UnitScale

open Lib

variable {S : UnitScale} {T : IntType} {v : T.Val} {u : S.Unit} {r : S.ValueInUnit T}

/-! ## Reading -/

/-- What is before the first `c`, and what is behind it. -/
def cut (c : U8) (s : List U8) : List U8 × List U8 :=
  let before := s.takeWhile (· != c)
  (before, s.drop (before.length + 1))

theorem bne_of_notMem {c : U8} {l : List U8} (h : c ∉ l) : ∀ a ∈ l, (a != c) = true := by
  intro a ha
  rw [bne_iff_ne]
  rintro rfl
  exact h ha

theorem cut_append {c : U8} {l t : List U8} (h : c ∉ l) : cut c (l ++ c :: t) = (l, t) := by
  have hbefore : (l ++ c :: t).takeWhile (· != c) = l := by
    rw [List.takeWhile_append_of_pos (bne_of_notMem h)]
    simp
  unfold cut
  simp only [hbefore]
  rw [← List.drop_drop, List.drop_left]
  rfl

theorem cut_of_notMem {c : U8} {l : List U8} (h : c ∉ l) : cut c l = (l, []) := by
  have hbefore : l.takeWhile (· != c) = l := by
    rw [List.takeWhile_eq_self_iff]
    exact bne_of_notMem h
  unfold cut
  simp only [hbefore]
  rw [List.drop_eq_nil_of_le (Nat.le_succ _)]

/-- What a text says: wholes, tenths, and the unit that has the symbol. -/
def readBack (S : UnitScale) (s : List U8) : Option (Int × Nat × S.Unit) :=
  let (number, symbol) := cut 0x20 s
  let (whole, tenth) := cut 0x2e number
  ((List.finRange (S.last + 1)).find? fun u => S.symbol u = symbol).map fun u =>
    (signedDecimal whole, decimal tenth, u)

theorem decimal_digitChar {d : Nat} (h : d < 10) : decimal [digitChar d] = d := by
  rw [decimal, List.map_singleton, charDigit_digitChar (by omega)]
  simp

/-- The number is cut at its point, if it has one. -/
theorem cut_number (n : Int) (t : IntType.u8.Val) :
    cut 0x2e (intNumeral 10 n ++ fraction t) = (intNumeral 10 n, (fraction t).drop 1) := by
  have hpoint : (0x2e : U8) ∉ intNumeral 10 n :=
    notMem_intNumeral (by decide) (by decide) (by decide) (by decide)
  unfold fraction
  split
  · exact cut_append hpoint
  · rw [List.append_nil, cut_of_notMem hpoint]
    rfl

theorem decimal_fraction {t : IntType.u8.Val} (ht : t.val < 10) :
    decimal ((fraction t).drop 1) = t.val.toNat := by
  have hlow := t.property.1
  have hzero : IntType.u8.lowest = 0 := rfl
  unfold fraction
  split
  · exact decimal_digitChar (by omega)
  · next hne =>
      rw [not_not.mp hne]
      rfl

/-- **The text is read back.** -/
theorem readBack_text (hS : Function.Injective S.symbol) (ht : r.tenth.val < 10) :
    S.readBack r.text = some (r.whole.val, r.tenth.val.toNat, r.unit) := by
  have htext : r.text =
      (intNumeral 10 r.whole.val ++ fraction r.tenth) ++ 0x20 :: S.symbol r.unit := by
    rw [List.append_assoc]
    rfl
  have hunit : (List.finRange (S.last + 1)).find? (fun u => S.symbol u = S.symbol r.unit) =
      some r.unit := by
    have hsome : ((List.finRange (S.last + 1)).find? fun u =>
        S.symbol u = S.symbol r.unit).isSome := by
      rw [List.find?_isSome]
      exact ⟨r.unit, List.mem_finRange _, decide_eq_true rfl⟩
    obtain ⟨u, hu⟩ := Option.isSome_iff_exists.mp hsome
    have hsymbol := List.find?_some hu
    rw [decide_eq_true_iff] at hsymbol
    rw [hu, hS hsymbol]
  unfold readBack
  rw [htext, cut_append (space_notMem_number ht)]
  simp only [cut_number, hunit, Option.map_some, signedDecimal_intNumeral, decimal_fraction ht]

/-! ## What a reading is worth -/

/-- What it says of a value `v` of the unit `u` that `n` of the unit `b` and `t` tenths are read. -/
structure Reading (S : UnitScale) (v : Int) (u : S.Unit) (n : Int) (t : Nat) (b : S.Unit) :
    Prop where
  unit : u ≤ b
  /-- In the unit of the value nothing is left out. -/
  same : b = u → n = v ∧ t = 0
  sign : n.sign = v.sign
  /-- No more is read than there is, -/
  most : (10 * n.natAbs + t) * S.size b ≤ 10 * (v.natAbs * S.size u)
  /-- and more than nine tenths of it. -/
  least : v ≠ 0 → 9 * (v.natAbs * S.size u) < (10 * n.natAbs + t) * S.size b

theorem reading_of_shown (hS : S.Regular) {x : Int} {b : S.Unit} {n t : Int}
    (h : Shown S.size x u b n t) : Reading S x u n t.natAbs b := by
  have hscale := hS.accepted.scale
  refine ⟨h.le, ?_, h.sign_whole hscale hS.last_pos, (h.bracket hscale hS.last_pos).1,
    h.close hscale hS.last_pos⟩
  rintro rfl
  obtain ⟨hwhole, htenth⟩ := h.whole_of_self hscale hS.last_pos
  exact ⟨hwhole, by rw [htenth]; rfl⟩

/-- **What is written is read back**: what is read is what `fit` returned, and it is the value but
for less than a tenth of it, for any integer type, value and unit. -/
theorem reads_back (hS : S = TimeUnit ∨ S = ByteUnit) (left : Nat → U8) (v : T.Val) (u : S.Unit)
    {buf : Slice U8} (hbuf : S.REPR_MAX_LEN T ≤ buf.len) :
    ∃ r len buf', S.fit v u = pure (.ok r) ∧ S.write left v u buf = pure (.ok len, buf') ∧
      S.readBack (buf'.toList len.val.toNat) = some (r.whole.val, r.tenth.val.toNat, r.unit) ∧
      Reading S v.val u r.whole.val r.tenth.val.toNat r.unit := by
  have hreg := regular_of_eq hS
  obtain ⟨r, hr⟩ := hreg.exists_fit v u
  have ht := tenth_lt_of_fit hr
  have hlen := length_text_le hr
  have hmax := REPR_MAX_LEN_le_of_eq hS T
  obtain ⟨res, buf', hrun, -, -, hstored, -⟩ := writesText_writeValue left ht (by omega) buf
  obtain ⟨⟨len, rfl, hval⟩, htext⟩ := hstored (hlen.trans hbuf)
  have hshown := reading_of_shown hreg (hreg.shown hr)
  refine ⟨r, len, buf', hr, ?_, ?_, ?_⟩
  · rw [write, hr, pure_bind]
    exact hrun
  · rw [hval, Int.toNat_natCast, htext]
    exact readBack_text (symbol_injective_of_eq hS) ht
  · have hlow := r.tenth.property.1
    have hzero : IntType.u8.lowest = 0 := rfl
    rwa [show r.tenth.val.natAbs = r.tenth.val.toNat by omega] at hshown

/-- `-128 s` are written as `-2.1 m`. -/
theorem reads_back_i8 : ∃ len buf',
    TimeUnit.write (fun _ => 0) (IntType.i8.wrap (-128)) 3 ⟨fun _ => 0, 9, by decide⟩ =
      pure (.ok len, buf') ∧
    TimeUnit.readBack (buf'.toList len.val.toNat) = some (-2, 1, 4) ∧
    Reading TimeUnit (-128) 3 (-2) 1 4 := by
  have hbuf : TimeUnit.REPR_MAX_LEN .i8 ≤ (⟨fun _ => 0, 9, by decide⟩ : Slice U8).len := by
    decide +kernel
  obtain ⟨r, len, buf', hr, hwrite, hread, hreading⟩ :=
    reads_back (S := TimeUnit) (Or.inl rfl) (fun _ => 0) (IntType.i8.wrap (-128)) 3 hbuf
  obtain rfl : r = ⟨IntType.i8.wrap (-2), IntType.u8.wrap 1, 4⟩ := eq_of_fit hr (by decide +kernel)
  exact ⟨len, buf', hwrite, hread, hreading⟩

end Shclog.UnitScale
