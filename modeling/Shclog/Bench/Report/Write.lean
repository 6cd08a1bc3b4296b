import Mathlib.Data.List.FinRange
import Mathlib.Data.Nat.Log
import Shclog.Bench.Report.Laws
import Shclog.Fmt
import Shclog.Lib.Emit

/-! # `write`

The text of a value with its unit: what is written, how long it gets, and that it says all that
`fit` found. -/

namespace Shclog

open Lib

/-- `std::numeric_limits<T>::digits10`. -/
def IntType.digits10 (T : IntType) : Nat := Nat.log 10 (T.max + 1).toNat

theorem IntType.two_le_digits10 (T : IntType) : 2 ≤ T.digits10 := by
  cases T <;> decide

/-- A value has at most one more digit. -/
theorem IntType.Val.natAbs_lt_pow {T : IntType} (v : T.Val) :
    v.val.natAbs < 10 ^ (T.digits10 + 1) := by
  have hlt : (T.max + 1).toNat < 10 ^ (T.digits10 + 1) := Nat.lt_pow_succ_log_self (by decide) _
  have := v.natAbs_le
  omega

/-- What stores bytes and may return an error; `used` is `it - first`. -/
abbrev Writing := Writer U8 UnitReprError Eval Unit

namespace UnitScale

variable {S : UnitScale} {T : IntType} {v : T.Val} {u : S.Unit} {r r' : S.ValueInUnit T}

/-- `SYMBOL_MAX_LEN`. -/
def SYMBOL_MAX_LEN (S : UnitScale) : Nat :=
  (List.finRange (S.last + 1)).foldl (fun len i => max len (S.symbol i).length) 0

/-- `REPR_MAX_LEN<T>`. -/
def REPR_MAX_LEN (S : UnitScale) (T : IntType) : Nat :=
  (T.digits10 + 1) + 1 + 1 + S.SYMBOL_MAX_LEN

/-! ## The code -/

/-- `put`. -/
def put (len : Nat) (c : U8) : StateT (Out U8) Eval Bool := do
  let o ← get
  if o.used = len then pure false
  else do
    set (o.push c)
    pure true

/-- `if (!put(c)) return std::unexpected(UnitReprError::BufferTooSmall)`. -/
def putOrFail (len : Nat) (c : U8) : Writing := do
  let ok ← put len c
  if ok then pure () else throw .bufferTooSmall

/-- The point and the tenth, unless it is zero. -/
def writeTenth (len : Nat) (tenth : IntType.u8.Val) : Writing :=
  if tenth.val ≠ 0 then do
    putOrFail len 0x2e
    Checked.assert (tenth.val < 10) Fault.assertion
    -- the sum of a `char` and a `u8` is an `int`
    let c ← Eval.arith .i32 (0x30 + tenth.val)
    let c ← Eval.intCast .u8 c.val
    putOrFail len (BitVec.ofInt 8 c.val)
  else pure ()

/-- What `write` does after the number. -/
def writeRest (v : S.ValueInUnit T) (len : Nat) : Writing := do
  writeTenth len v.tenth
  putOrFail len 0x20
  (S.symbol v.unit).forM (putOrFail len)

/-- `write` of what `fit` returns. -/
def writeValue (left : Nat → U8) (v : S.ValueInUnit T) (buf : Slice U8) :
    Eval (Except UnitReprError IntType.usize.Val × Slice U8) := do
  -- this rids a floating point number of its sign
  let whole := if v.tenth.val = 0 ∧ v.whole.val = 0 then 0 else v.whole
  let (number, buf) ← Fmt.writeNumber left buf whole 10
  match number with
  | .error _ => pure (.error .bufferTooSmall, buf)
  | .ok n => do
    -- `it += *number`
    let (res, o) ← (writeRest v buf.len).run.run ⟨buf.data, n.val.toNat⟩
    let buf := { buf with data := o.cells }
    match res with
    | .error e => pure (.error e, buf)
    | .ok _ => do
      let d ← Eval.arith .isize o.used
      let n ← Eval.intCast .usize d.val
      pure (.ok n, buf)

/-- `write`. -/
def write (left : Nat → U8) (value : T.Val) (u : S.Unit) (buf : Slice U8) :
    Eval (Except UnitReprError IntType.usize.Val × Slice U8) := do
  let r ← S.fit value u
  match r with
  | .error e => pure (.error e, buf)
  | .ok r => writeValue left r buf

/-! ## The text -/

/-- The fraction as it is shown: a point and a digit, if there is one. -/
def fraction (tenth : IntType.u8.Val) : List U8 :=
  if tenth.val ≠ 0 then [0x2e, digitChar tenth.val.toNat] else []

/-- The number, its fraction, and after a space the unit. -/
def ValueInUnit.text (r : S.ValueInUnit T) : List U8 :=
  intNumeral 10 r.whole.val ++ (fraction r.tenth ++ 0x20 :: S.symbol r.unit)

example : (⟨IntType.i64.wrap (-1), IntType.u8.wrap 1, 1⟩ : TimeUnit.ValueInUnit .i64).text =
    bytesOf "-1.1 µs" := by
  decide +kernel

theorem run_put_of_ne {len : Nat} {o : Out U8} (h : o.used ≠ len) (c : U8) :
    (put len c).run o = pure (true, o.push c) := by
  simp [put, h]

theorem run_put_of_eq {len : Nat} {o : Out U8} (h : o.used = len) (c : U8) :
    (put len c).run o = pure (false, o) := by
  simp [put, h]

theorem emits_putOrFail (len : Nat) (c : U8) :
    Emits len UnitReprError.bufferTooSmall (putOrFail len c) [c] := by
  refine ⟨?_, ?_⟩
  · intro o hfits
    have hne : o.used ≠ len := by
      rw [List.length_singleton] at hfits
      omega
    simp [putOrFail, ExceptT.run_bind, run_put_of_ne hne]
  · intro o hle hlt
    have heq : o.used = len := by
      rw [List.length_singleton] at hlt
      omega
    refine ⟨o, ?_, fun _ _ => rfl⟩
    simp [putOrFail, ExceptT.run_bind, run_put_of_eq heq]

theorem emits_writeTenth (len : Nat) {tenth : IntType.u8.Val} (h : tenth.val < 10) :
    Emits len UnitReprError.bufferTooSmall (writeTenth len tenth) (fraction tenth) := by
  unfold writeTenth fraction
  by_cases hne : tenth.val ≠ 0
  · have hpos := tenth.property.1
    have hlow : IntType.u8.lowest = 0 := rfl
    have hchar : IntType.u8.InRange (0x30 + tenth.val) :=
      IntType.inRange_of_le (by omega) (by have := IntType.u8.lt_max; omega)
    have hbyte : BitVec.ofInt 8 (0x30 + tenth.val) = digitChar tenth.val.toNat := by
      rw [digitChar, if_pos (by omega), ← BitVec.ofInt_natCast]
      congr 1
      omega
    have hint : IntType.i32.InRange (0x30 + tenth.val) := hchar.promote
    rw [if_pos hne, if_pos hne, Checked.assert_true _ h, Eval.arith_of_inRange hint]
    simp only [liftM_pure, pure_bind]
    rw [Eval.intCast_of_inRange hchar, liftM_pure, pure_bind, hbyte]
    exact (emits_putOrFail len 0x2e).seq (emits_putOrFail len _)
  · rw [if_neg hne, if_neg hne]
    exact Emits.nil

theorem emits_writeRest (len : Nat) (h : r.tenth.val < 10) :
    Emits len UnitReprError.bufferTooSmall (writeRest r len)
      (fraction r.tenth ++ 0x20 :: S.symbol r.unit) :=
  (emits_writeTenth len h).seq
    ((emits_putOrFail len 0x20).seq (Emits.forM (emits_putOrFail len) (S.symbol r.unit)))

theorem length_text (r : S.ValueInUnit T) : r.text.length =
    (intNumeral 10 r.whole.val).length + (fraction r.tenth ++ 0x20 :: S.symbol r.unit).length :=
  List.length_append

/-- **What is written** of the triple is its text. -/
theorem writesText_writeValue (left : Nat → U8) (ht : r.tenth.val < 10)
    (hlen : (r.text.length : Int) ≤ IntType.isize.max) :
    Fmt.WritesText .bufferTooSmall (writeValue left r) r.text := by
  intro buf
  have hsum := length_text r
  -- an integer has no negative zero to get rid of
  have hwhole : (if r.tenth.val = 0 ∧ r.whole.val = 0 then 0 else r.whole) = r.whole := by
    split
    · next h => exact Subtype.ext h.2.symm
    · rfl
  obtain ⟨number, b, hnum, hblen, hbkeep, hstored, hshort⟩ :=
    Fmt.writesText_writeNumber left r.whole 10 (by omega) buf
  have hrest := emits_writeRest b.len ht
  unfold writeValue
  simp only [hwhole, hnum, pure_bind]
  -- the number may fit or not; if it does, so may the rest
  by_cases hfits : (intNumeral 10 r.whole.val).length ≤ buf.len
  · obtain ⟨⟨n, rfl, hn⟩, hnumber⟩ := hstored hfits
    have hused : n.val.toNat = (intNumeral 10 r.whole.val).length := by omega
    by_cases hall : r.text.length ≤ buf.len
    · obtain ⟨o, hrun, hused', hwritten, hkeep⟩ :=
        hrest.written ⟨b.data, n.val.toNat⟩ (by dsimp only; omega)
      have hlast : o.used = r.text.length := by
        rw [hused', hsum, hused]
      have hd : IntType.isize.InRange o.used :=
        IntType.inRange_of_le (Int.natCast_nonneg _) (hlast ▸ hlen)
      have hlen' : IntType.usize.InRange o.used :=
        IntType.inRange_of_le (Int.natCast_nonneg _) (hd.2.trans (by decide))
      have htext : o.written = r.text := by
        rw [hwritten, Out.written, hused]
        exact congrArg (· ++ _) hnumber
      simp only [hrun, pure_bind, Eval.arith_of_inRange hd, Eval.intCast_of_inRange hlen']
      refine ⟨_, _, rfl, hblen, ?_, ?_, ?_⟩
      · intro i hi
        exact (hkeep i (hblen.trans_le hi)).trans (hbkeep i hi)
      · intro _
        refine ⟨⟨_, rfl, by dsimp only; omega⟩, ?_⟩
        rw [← hlast]
        exact htext
      · intro hlt
        exact absurd hall (not_le.mpr hlt)
    · obtain ⟨o, hrun, hkeep⟩ := hrest.fails ⟨b.data, n.val.toNat⟩ (by dsimp only; omega)
        (by dsimp only; omega)
      simp only [hrun, pure_bind]
      refine ⟨_, _, rfl, hblen, ?_, ?_, fun _ => rfl⟩
      · intro i hi
        exact (hkeep i (hblen.trans_le hi)).trans (hbkeep i hi)
      · intro hle
        exact absurd hle hall
  · obtain rfl := hshort (not_le.mp hfits)
    refine ⟨_, _, rfl, hblen, hbkeep, ?_, fun _ => rfl⟩
    intro hle
    omega

/-! ## Length -/

theorem length_symbol_le (S : UnitScale) (i : S.Unit) : (S.symbol i).length ≤ S.SYMBOL_MAX_LEN := by
  have hfold : ∀ (l : List S.Unit) (n : Nat),
      n ≤ l.foldl (fun len i => max len (S.symbol i).length) n ∧
        ∀ i ∈ l, (S.symbol i).length ≤ l.foldl (fun len i => max len (S.symbol i).length) n := by
    intro l
    induction l with
    | nil => exact fun n => ⟨le_rfl, by simp⟩
    | cons a l ih =>
        intro n
        obtain ⟨hacc, hmem⟩ := ih (max n (S.symbol a).length)
        refine ⟨(le_max_left _ _).trans hacc, ?_⟩
        intro i hi
        rcases List.mem_cons.mp hi with rfl | hi
        · exact (le_max_right _ _).trans hacc
        · exact hmem i hi
  exact (hfold _ 0).2 i (List.mem_finRange i)

theorem tenth_lt_of_fit (h : S.fit v u = pure (.ok r)) : r.tenth.val < 10 := by
  obtain ⟨-, hpos, -, -, -, ht⟩ := fit_eq_pure_iff.mp h
  have := tenths_le hpos v.val.natAbs
  omega

/-- There are tenths only where one digit goes before them. -/
theorem whole_lt_of_fit (h : S.fit v u = pure (.ok r)) (hne : r.tenth.val ≠ 0) :
    r.whole.val.natAbs < 10 := by
  obtain ⟨-, -, -, -, hw, ht⟩ := fit_eq_pure_iff.mp h
  rw [hw, natAbs_tdiv_natCast]
  by_contra hge
  apply hne
  rw [ht, tenths, if_neg hge]
  rfl

/-- **`REPR_MAX_LEN` is enough.** It has no room for a fraction of its own: what has one has fewer
digits than the type allows. -/
theorem length_text_le (h : S.fit v u = pure (.ok r)) : r.text.length ≤ S.REPR_MAX_LEN T := by
  have hsymbol := S.length_symbol_le r.unit
  have hsign := length_intNumeral_le 10 r.whole.val
  rw [length_text, REPR_MAX_LEN, fraction]
  split
  · next hne =>
      -- a sign, a digit, the point and the tenth
      have hone := length_numeral_of_lt (whole_lt_of_fit h hne)
      have htwo := IntType.two_le_digits10 T
      simp only [List.length_append, List.length_cons, List.length_nil]
      omega
  · have hdigits := length_numeral_le (b := 10) (by decide) (Nat.succ_pos _)
      r.whole.natAbs_lt_pow
    simp only [List.nil_append, List.length_cons]
    omega

/-! ## What the text says -/

theorem fraction_inj {t t' : IntType.u8.Val} (ht : t.val < 10) (ht' : t'.val < 10)
    (h : fraction t = fraction t') : t = t' := by
  have h₀ := t.property.1
  have h₀' := t'.property.1
  have hlow : IntType.u8.lowest = 0 := rfl
  apply Subtype.ext
  unfold fraction at h
  split at h <;> split at h
  · have hdigit := digitChar_inj (by omega) (by omega) (List.cons.inj (List.cons.inj h).2).1
    omega
  · cases h
  · cases h
  · omega

theorem length_fraction (t : IntType.u8.Val) :
    (fraction t).length = if t.val ≠ 0 then 2 else 0 := by
  unfold fraction
  split <;> rfl

/-- The point shows whether there is a fraction. -/
theorem point_mem_iff {n : Int} {t : IntType.u8.Val} :
    0x2e ∈ intNumeral 10 n ++ fraction t ↔ t.val ≠ 0 := by
  have hnumeral : (0x2e : U8) ∉ intNumeral 10 n :=
    notMem_intNumeral (by decide) (by decide) (by decide) (by decide)
  rw [List.mem_append, or_iff_right hnumeral, fraction]
  split
  · next h => simp [h]
  · next h => simp [h]

theorem number_inj {n n' : Int} {t t' : IntType.u8.Val} (ht : t.val < 10) (ht' : t'.val < 10)
    (h : intNumeral 10 n ++ fraction t = intNumeral 10 n' ++ fraction t') : n = n' ∧ t = t' := by
  have hzero : t.val ≠ 0 ↔ t'.val ≠ 0 := by
    rw [← point_mem_iff, h, point_mem_iff]
  have hlen : (fraction t).length = (fraction t').length := by
    rw [length_fraction, length_fraction]
    simp only [hzero]
  obtain ⟨hn, hfraction⟩ := List.append_inj' h hlen
  exact ⟨intNumeral_inj (by decide) (by decide) hn, fraction_inj ht ht' hfraction⟩

theorem space_notMem_number {n : Int} {t : IntType.u8.Val} (ht : t.val < 10) :
    (0x20 : U8) ∉ intNumeral 10 n ++ fraction t := by
  have hnumeral : (0x20 : U8) ∉ intNumeral 10 n :=
    notMem_intNumeral (by decide) (by decide) (by decide) (by decide)
  rw [List.mem_append, or_iff_right hnumeral, fraction]
  split
  · intro h
    have hdigit : digitChar t.val.toNat = 0x20 := by
      simpa [eq_comm] using h
    have hchar := toNat_digitChar (show t.val.toNat < 36 by omega)
    rw [hdigit, if_pos (by omega)] at hchar
    have : (0x20 : U8).toNat = 32 := rfl
    omega
  · exact List.not_mem_nil

/-- **The text says it all**, where the symbols are told apart and have no space in them. -/
theorem text_inj (hS : Function.Injective S.symbol) (hspace : ∀ i, (0x20 : U8) ∉ S.symbol i)
    (ht : r.tenth.val < 10) (ht' : r'.tenth.val < 10) (h : r.text = r'.text) : r = r' := by
  rw [ValueInUnit.text, ValueInUnit.text, ← List.append_assoc, ← List.append_assoc] at h
  -- the first space ends the number
  obtain ⟨hnumber, -, hsymbol⟩ :=
    (List.append_cons_inj_of_notMem (space_notMem_number ht) (hspace _)).mp h
  obtain ⟨hwhole, htenth⟩ := number_inj ht ht' hnumber
  have hunit := hS hsymbol
  cases r
  cases r'
  congr
  exact Subtype.ext hwhole

/-! ## The two tables -/

theorem symbol_injective_of_eq (hS : S = TimeUnit ∨ S = ByteUnit) :
    Function.Injective S.symbol := by
  rcases hS with rfl | rfl <;> decide +kernel

theorem space_notMem_symbol_of_eq (hS : S = TimeUnit ∨ S = ByteUnit) :
    ∀ i, (0x20 : U8) ∉ S.symbol i := by
  rcases hS with rfl | rfl <;> decide +kernel

theorem REPR_MAX_LEN_le_of_eq (hS : S = TimeUnit ∨ S = ByteUnit) (T : IntType) :
    (S.REPR_MAX_LEN T : Int) ≤ IntType.isize.max := by
  rcases hS with rfl | rfl <;> cases T <;> decide +kernel

/-- **`write`** stores the text of what `fit` returns where there is room for it, `REPR_MAX_LEN` is
room enough, and different results have different texts. -/
theorem write_exact (hS : S = TimeUnit ∨ S = ByteUnit) :
    (∀ (left : Nat → U8) (v : T.Val) (u : S.Unit), ∃ r, S.fit v u = pure (.ok r) ∧
      Fmt.WritesText .bufferTooSmall (S.write left v u) r.text ∧
      r.text.length ≤ S.REPR_MAX_LEN T ∧
      ∀ buf : Slice U8, S.REPR_MAX_LEN T ≤ buf.len →
        ∃ n buf', S.write left v u buf = pure (.ok n, buf')) ∧
    (∀ (v v' : T.Val) (u u' : S.Unit) (r r' : S.ValueInUnit T),
      S.fit v u = pure (.ok r) → S.fit v' u' = pure (.ok r') → r ≠ r' → r.text ≠ r'.text) := by
  refine ⟨?_, ?_⟩
  · intro left v u
    obtain ⟨r, hr⟩ := (regular_of_eq hS).exists_fit v u
    have hwrite : S.write left v u = writeValue left r := by
      funext buf
      rw [write, hr, pure_bind]
    have hlen := length_text_le hr
    have hmax := REPR_MAX_LEN_le_of_eq hS T
    have htext := writesText_writeValue left (tenth_lt_of_fit hr) (by omega)
    rw [← hwrite] at htext
    refine ⟨r, hr, htext, hlen, ?_⟩
    intro buf hbuf
    obtain ⟨res, buf', hrun, -, -, hstored, -⟩ := htext buf
    obtain ⟨⟨n, rfl, -⟩, -⟩ := hstored (hlen.trans hbuf)
    exact ⟨n, buf', hrun⟩
  · intro v v' u u' r r' hr hr' hne heq
    apply hne
    exact text_inj (symbol_injective_of_eq hS) (space_notMem_symbol_of_eq hS)
      (tenth_lt_of_fit hr) (tenth_lt_of_fit hr') heq

theorem write_exact_i8 :
    (∃ r, TimeUnit.fit (IntType.i8.wrap (-128)) 3 = pure (.ok r) ∧
      Fmt.WritesText .bufferTooSmall (TimeUnit.write (fun _ => 0) (IntType.i8.wrap (-128)) 3)
        r.text ∧
      r.text.length ≤ TimeUnit.REPR_MAX_LEN .i8 ∧
      ∀ buf : Slice U8, TimeUnit.REPR_MAX_LEN .i8 ≤ buf.len →
        ∃ n buf', TimeUnit.write (fun _ => 0) (IntType.i8.wrap (-128)) 3 buf = pure (.ok n, buf')) ∧
    (⟨IntType.i8.wrap 1, IntType.u8.wrap 5, 4⟩ : TimeUnit.ValueInUnit .i8).text ≠
      (⟨IntType.i8.wrap 1, IntType.u8.wrap 6, 4⟩ : TimeUnit.ValueInUnit .i8).text :=
  have h := write_exact (S := TimeUnit) (T := .i8) (Or.inl rfl)
  have h₁ : TimeUnit.fit (IntType.i8.wrap 90) 3 =
      pure (.ok ⟨IntType.i8.wrap 1, IntType.u8.wrap 5, 4⟩) := by decide +kernel
  have h₂ : TimeUnit.fit (IntType.i8.wrap 96) 3 =
      pure (.ok ⟨IntType.i8.wrap 1, IntType.u8.wrap 6, 4⟩) := by decide +kernel
  ⟨h.1 (fun _ => 0) _ 3, h.2 _ _ 3 3 _ _ h₁ h₂ (by decide +kernel)⟩

end UnitScale

end Shclog
