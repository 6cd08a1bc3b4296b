import Shclog.Collections.Slice
import Shclog.Math

/-! # `Slice::make`

The allocation of a slice with its elements right behind it, in a debug build. Addresses are
numbers, the global `operator new` is a parameter, and of the type only sizes and alignments
matter. -/

namespace Shclog.Slice

open Lib

/-- What `Slice<T, Sentinel, Align>` is instantiated with, as far as memory is concerned, and the
`static_assert`s about it. -/
structure Layout where
  sizeofT : IntType.usize.Val
  alignofT : Nat
  hasSentinel : Bool
  align : Nat
  sizeofT_pos : 0 < sizeofT.val
  alignofT_singleBit : alignofT.isPowerOfTwo
  align_lt : align < 2 ^ 64
  align_singleBit : align.isPowerOfTwo
  default_le : max alignofT 8 ≤ align

namespace Layout

/-- `sizeof(Slice)`: a pointer and a `usize`, up to the next multiple of the alignment. -/
def sizeofSlice (S : Layout) : Nat := (16 + S.align - 1) / S.align * S.align

theorem sizeofSlice_lt (S : Layout) : S.sizeofSlice < 2 ^ 64 := by
  obtain ⟨k, hk⟩ := S.align_singleBit
  have hlt := S.align_lt
  rw [hk, Nat.pow_lt_pow_iff_right (by omega)] at hlt
  have halign : S.align ≤ 2 ^ 63 := hk ▸ Nat.pow_le_pow_right (by omega) (by omega)
  have hle : S.sizeofSlice ≤ 16 + S.align - 1 := Nat.div_mul_le_self _ _
  omega

def header (S : Layout) : IntType.usize.Val :=
  ⟨S.sizeofSlice, IntType.inRange_of_le (Int.natCast_nonneg _) (by
    have := S.sizeofSlice_lt
    have : IntType.usize.max = 2 ^ 64 - 1 := rfl
    omega)⟩

/-- `HAS_SENTINEL ? 1 : 0`. -/
def sentinelCount (S : Layout) : Nat := if S.hasSentinel then 1 else 0

theorem alignofT_dvd_align (S : Layout) : S.alignofT ∣ S.align := by
  obtain ⟨j, hj⟩ := S.alignofT_singleBit
  obtain ⟨k, hk⟩ := S.align_singleBit
  have hle := (Nat.le_max_left _ _).trans S.default_le
  rw [hj, hk] at hle ⊢
  exact Nat.pow_dvd_pow 2 ((Nat.pow_le_pow_iff_right (by decide)).mp hle)

theorem alignofT_dvd_sizeofSlice (S : Layout) : S.alignofT ∣ S.sizeofSlice :=
  S.alignofT_dvd_align.trans (Nat.dvd_mul_left _ _)

end Layout

/-- The global `operator new` of `std::align_val_t`, which may have nothing left to give. -/
structure Allocator where
  allocate : (bytes align : Nat) → Option Nat
  aligned : ∀ {bytes align this}, allocate bytes align = some this → align ∣ this

/-- What `make` returns, by address, and where it has put the sentinel. -/
structure Made where
  data : Nat
  len : IntType.usize.Val
  sentinelAt : Option Nat

/-- How many bytes `Slice::operator new` asks for. -/
def operatorNew (S : Layout) (header payload : IntType.usize.Val) : Eval IntType.usize.Val := do
  let slice_byte_size := mulWithOverflow payload S.sizeofT
  Checked.assert (¬ slice_byte_size.overflow) .assertion
  let total_byte_size := addWithOverflow slice_byte_size.value header
  Checked.assert (¬ total_byte_size.overflow) .assertion
  pure total_byte_size.value

/-- How many bytes `new (len + (HAS_SENTINEL ? 1 : 0), std::nothrow)` asks for. -/
def request (S : Layout) (len : IntType.usize.Val) : Eval IntType.usize.Val := do
  let payload ← Eval.arith .usize (len.val + S.sentinelCount)
  operatorNew S S.header payload

/-- `Slice(len)` at an address: `ptr_cast<T>(this + 1)`. -/
def construct (S : Layout) (this : Nat) (len : IntType.usize.Val) : Eval Made := do
  let data := this + S.sizeofSlice
  Checked.assert (data % S.alignofT = 0) .assertion
  pure ⟨data, len, none⟩

/-- `p->data[len] = Sentinel`, in a block of so many bytes. -/
def storeSentinel (S : Layout) (this : Nat) (bytes : IntType.usize.Val) (p : Made) : Eval Made := do
  let element := p.data + p.len.val.toNat * S.sizeofT.val.toNat
  -- where the index goes round the address space, there is no telling what is stored to
  Checked.assert (element + S.sizeofT.val.toNat ≤ this + bytes.val.toNat) .storeOutside
  pure { p with sentinelAt := some element }

/-- What `make` does once it has its bytes, or not. -/
def place (S : Layout) (len bytes : IntType.usize.Val) :
    Option Nat → Eval (Except MakeError Made)
  | none => pure (.error .outOfMemory)
  | some this => do
      let p ← construct S this len
      if S.hasSentinel then do
        let p ← storeSentinel S this bytes p
        pure (.ok p)
      else pure (.ok p)

/-- A call of `make`: how many bytes it has asked for, if it has come to that, and what it ends
with. -/
structure Making where
  requested : Option IntType.usize.Val
  outcome : Eval (Except MakeError Made)

/-- `make`. -/
def make (S : Layout) (A : Allocator) (len : IntType.usize.Val) : Making :=
  match request S len with
  | .fault e => ⟨none, .fault e⟩
  | .value bytes lossy =>
    ⟨some bytes, (place S len bytes (A.allocate bytes.val.toNat S.align)).after lossy⟩

/-! ## How many bytes that is -/

variable {S : Layout} {A : Allocator} {len payload bytes : IntType.usize.Val} {made : Made}
  {lossy : Bool}

theorem usize_nonneg (v : IntType.usize.Val) : 0 ≤ v.val := v.property.1

theorem usize_le (v : IntType.usize.Val) : v.val ≤ 2 ^ 64 - 1 := v.property.2

/-- **What `operator new` asks for** is not reduced: it asserts that nothing overflows. -/
theorem operatorNew_eq_value {header : IntType.usize.Val} :
    operatorNew S header payload = .value bytes lossy ↔
      bytes.val = payload.val * S.sizeofT.val + header.val ∧ lossy = false := by
  have hmul₀ := mul_nonneg (usize_nonneg payload) (usize_nonneg S.sizeofT)
  have hheader := usize_nonneg header
  constructor
  · intro h
    obtain ⟨⟨⟩, l₁, l₂, hmul, htotal, hlossy⟩ := Checked.bind_eq_value_iff.mp h
    obtain ⟨⟨⟩, l₃, l₄, hadd, hvalue, hl₂⟩ := Checked.bind_eq_value_iff.mp htotal
    rw [Checked.assert_eq_value_iff] at hmul hadd
    obtain ⟨hbytes, hl₄⟩ := Checked.pure_eq_value_iff.mp hvalue
    have hmul' : IntType.usize.InRange (payload.val * S.sizeofT.val) := by
      simpa [mulWithOverflow] using hmul.1
    rw [mulWithOverflow_of_inRange hmul'] at hadd hbytes
    have hadd' : IntType.usize.InRange (payload.val * S.sizeofT.val + header.val) := by
      simpa [addWithOverflow] using hadd.1
    rw [addWithOverflow_of_inRange (a := ⟨_, hmul'⟩) (b := header) hadd'] at hbytes
    refine ⟨by rw [hbytes], ?_⟩
    rw [hlossy, hl₂, hmul.2, hadd.2, hl₄]
    rfl
  · rintro ⟨hbytes, rfl⟩
    have hadd : IntType.usize.InRange (payload.val * S.sizeofT.val + header.val) :=
      hbytes ▸ bytes.property
    have hmul : IntType.usize.InRange (payload.val * S.sizeofT.val) :=
      IntType.inRange_of_le hmul₀ (by have := hadd.2; omega)
    unfold operatorNew
    rw [mulWithOverflow_of_inRange hmul]
    dsimp only
    rw [addWithOverflow_of_inRange (a := ⟨_, hmul⟩) (b := header) hadd]
    simp only [Checked.assert_true, Bool.false_eq_true, not_false_eq_true, pure_bind]
    exact congrArg (Checked.value · false) (Subtype.ext hbytes.symm)

/-- Nothing but an assertion ends it early. -/
theorem eq_assertion_of_operatorNew {header : IntType.usize.Val} {e : Fault}
    (h : operatorNew S header payload = .fault e) : e = .assertion := by
  unfold operatorNew Checked.assert at h
  dsimp only at h
  split at h
  · rw [pure_bind] at h
    split at h
    · cases h
    · cases h
      rfl
  · cases h
    rfl

/-- The one length that leaves no room for the sentinel. -/
def Wraps (S : Layout) (len : IntType.usize.Val) : Prop := S.hasSentinel ∧ len.val = 2 ^ 64 - 1

theorem payload_of_wraps (h : Wraps S len) :
    Eval.arith .usize (len.val + S.sentinelCount) = .value 0 true := by
  rw [Layout.sentinelCount, if_pos h.1, h.2]
  rfl

theorem payload_of_not_wraps (h : ¬ Wraps S len) :
    IntType.usize.InRange (len.val + S.sentinelCount) := by
  have hlen₀ := usize_nonneg len
  have hlen := usize_le len
  have hmax : IntType.usize.max = 2 ^ 64 - 1 := rfl
  apply IntType.inRange_of_le (by omega)
  unfold Layout.sentinelCount
  split
  · next hs =>
      have hne : len.val ≠ 2 ^ 64 - 1 := fun hlast => h ⟨hs, hlast⟩
      omega
  · omega

/-- Where the sentinel is counted, the bytes are exact unless an assertion fails. -/
theorem request_of_not_wraps (h : ¬ Wraps S len) : request S len = .fault .assertion ∨
    ∃ bytes : IntType.usize.Val, request S len = .value bytes false ∧
      bytes.val = S.sizeofSlice + (len.val + S.sentinelCount) * S.sizeofT.val := by
  have hrequest : request S len =
      operatorNew S S.header ⟨len.val + S.sentinelCount, payload_of_not_wraps h⟩ := by
    rw [request, Eval.arith_of_inRange (payload_of_not_wraps h), pure_bind]
  cases hnew : operatorNew S S.header ⟨len.val + S.sentinelCount, payload_of_not_wraps h⟩ with
  | fault e => exact .inl (by rw [hrequest, hnew, eq_assertion_of_operatorNew hnew])
  | value bytes lossy =>
      obtain ⟨hbytes, rfl⟩ := operatorNew_eq_value.mp hnew
      exact .inr ⟨bytes, by rw [hrequest, hnew], hbytes.trans (Int.add_comm _ _)⟩

/-- Where it is not, there are bytes for the header only. -/
theorem request_of_wraps (h : Wraps S len) : request S len = .value S.header true := by
  have hheader : S.header.val = (0 : IntType.usize.Val).val * S.sizeofT.val + S.header.val :=
    ((congrArg (· + S.header.val) (Int.zero_mul _)).trans (Int.zero_add _)).symm
  rw [request, payload_of_wraps h, Checked.value_bind,
    operatorNew_eq_value.mpr ⟨hheader, rfl⟩]
  rfl

/-! ## What is made of them -/

/-- What is made in the block at `this`. -/
def Layout.madeAt (S : Layout) (len : IntType.usize.Val) (this : Nat) : Made where
  data := this + S.sizeofSlice
  len := len
  sentinelAt :=
    if S.hasSentinel then some (this + S.sizeofSlice + len.val.toNat * S.sizeofT.val.toNat)
    else none

/-- A block that is aligned for the slice is aligned for its elements. -/
theorem construct_of_dvd {this : Nat} (hthis : S.align ∣ this) :
    construct S this len = pure ⟨this + S.sizeofSlice, len, none⟩ := by
  have hdata : (this + S.sizeofSlice) % S.alignofT = 0 :=
    Nat.mod_eq_zero_of_dvd
      (dvd_add (S.alignofT_dvd_align.trans hthis) S.alignofT_dvd_sizeofSlice)
  simp [construct, hdata]

/-- There is room in the block for the header, the elements and the sentinel. -/
def Room (S : Layout) (len bytes : IntType.usize.Val) : Prop :=
  S.sizeofSlice + (len.val + S.sentinelCount) * S.sizeofT.val ≤ bytes.val

theorem Room.toNat (h : Room S len bytes) :
    S.sizeofSlice + (len.val.toNat + S.sentinelCount) * S.sizeofT.val.toNat ≤
      bytes.val.toNat := by
  rw [Int.le_toNat (usize_nonneg bytes)]
  push_cast [Int.toNat_of_nonneg (usize_nonneg len), Int.toNat_of_nonneg (usize_nonneg S.sizeofT)]
  exact h

/-- It goes well where there is room. -/
theorem place_of_room {this : Nat} (hthis : S.align ∣ this) (hroom : Room S len bytes) :
    place S len bytes (some this) = pure (.ok (S.madeAt len this)) := by
  unfold place
  dsimp only
  rw [construct_of_dvd hthis, pure_bind]
  cases hs : S.hasSentinel with
  | false => simp [Layout.madeAt, hs]
  | true =>
      have hin : this + S.sizeofSlice + len.val.toNat * S.sizeofT.val.toNat +
          S.sizeofT.val.toNat ≤ this + bytes.val.toNat := by
        have hnat := hroom.toNat
        rw [Layout.sentinelCount, if_pos hs, Nat.add_mul, Nat.one_mul] at hnat
        omega
      simp [Layout.madeAt, storeSentinel, hs, hin]

/-- In a block for the header only, the sentinel is stored somewhere else. -/
theorem place_of_wraps {this : Nat} (hthis : S.align ∣ this) (hwraps : Wraps S len) :
    place S len S.header (some this) = .fault .storeOutside := by
  have hheader : S.header.val.toNat = S.sizeofSlice := rfl
  have hsize := S.sizeofT_pos
  have hout : ¬ this + S.sizeofSlice + len.val.toNat * S.sizeofT.val.toNat +
      S.sizeofT.val.toNat ≤ this + S.header.val.toNat := by
    omega
  unfold place
  dsimp only
  rw [construct_of_dvd hthis, pure_bind, if_pos hwraps.1, storeSentinel]
  dsimp only
  rw [Checked.assert, if_neg hout]
  rfl

/-! ## Whether that is enough -/

/-- A slice is not larger than its allocation: either an assertion fails, or there is no memory, or
what was asked for has room for it. -/
def Covers (S : Layout) (A : Allocator) (len : IntType.usize.Val) : Prop :=
  (make S A len).outcome = .fault .assertion ∨
    (∃ lossy, (make S A len).outcome = .value (.error .outOfMemory) lossy) ∨
    ∃ bytes, (make S A len).requested = some bytes ∧ Room S len bytes

theorem make_of_request (h : request S len = .value bytes lossy) : make S A len =
    ⟨some bytes, (place S len bytes (A.allocate bytes.val.toNat S.align)).after lossy⟩ := by
  rw [make, h]

theorem make_of_assertion (h : request S len = .fault .assertion) :
    make S A len = ⟨none, .fault .assertion⟩ := by
  rw [make, h]

/-- **When there is room**, the slice that is made lies inside its block, with its elements and its
sentinel. -/
theorem inside_of_room (hrequest : (make S A len).requested = some bytes)
    (hroom : Room S len bytes) :
    (∃ lossy, (make S A len).outcome = .value (.error .outOfMemory) lossy) ∨
    ∃ this made lossy, A.allocate bytes.val.toNat S.align = some this ∧
      (make S A len).outcome = .value (.ok made) lossy ∧ made.len = len ∧
      this + S.sizeofSlice = made.data ∧
      made.data + len.val.toNat * S.sizeofT.val.toNat ≤ this + bytes.val.toNat ∧
      (made.sentinelAt.isSome ↔ S.hasSentinel) ∧
      ∀ p ∈ made.sentinelAt, p + S.sizeofT.val.toNat ≤ this + bytes.val.toNat := by
  have hvalue : ∃ lossy, request S len = .value bytes lossy := by
    unfold make at hrequest
    cases hr : request S len with
    | fault e =>
        rw [hr] at hrequest
        cases hrequest
    | value bytes' lossy =>
        rw [hr] at hrequest
        cases hrequest
        exact ⟨lossy, rfl⟩
  obtain ⟨lossy, hvalue⟩ := hvalue
  rw [make_of_request hvalue]
  cases hthis : A.allocate bytes.val.toNat S.align with
  | none => exact .inl ⟨_, rfl⟩
  | some this =>
      have hnat := hroom.toNat
      rw [Nat.add_mul] at hnat
      refine .inr ⟨this, S.madeAt len this, lossy || false, rfl, ?_, rfl, rfl, ?_, ?_, ?_⟩
      · dsimp only
        rw [place_of_room (A.aligned hthis) hroom]
        rfl
      · show this + S.sizeofSlice + _ ≤ _
        omega
      · unfold Layout.madeAt
        cases S.hasSentinel <;> simp
      · intro p hp
        cases hs : S.hasSentinel with
        | false =>
            rw [Layout.madeAt, hs] at hp
            cases hp
        | true =>
            rw [Layout.madeAt, hs] at hp
            cases hp
            rw [Layout.sentinelCount, if_pos hs, Nat.one_mul] at hnat
            omega

/-- **When `make` covers what it returns.** Nothing is asserted of `len + 1`, so that for a slice with
a sentinel and the largest length a block with neither is asked for: unless the allocator has not
even room for the header, the sentinel is stored outside of it. -/
theorem covers_iff :
    Covers S A len ↔
      (S.hasSentinel → len.val = 2 ^ 64 - 1 → A.allocate S.sizeofSlice S.align = none) := by
  have hheader : S.header.val = S.sizeofSlice := rfl
  constructor
  · intro hcov hs hlast
    have hmake := make_of_request (A := A) (request_of_wraps ⟨hs, hlast⟩)
    rw [Option.eq_none_iff_forall_not_mem]
    intro this hthis
    have hthis : A.allocate S.header.val.toNat S.align = some this := hthis
    have hplace := place_of_wraps (A.aligned hthis) ⟨hs, hlast⟩
    rw [hthis, hplace] at hmake
    unfold Covers at hcov
    rw [hmake] at hcov
    rcases hcov with hfault | ⟨lossy, hnone⟩ | ⟨bytes, hbytes, hroom⟩
    · cases hfault
    · cases hnone
    · obtain rfl : S.header = bytes := Option.some_inj.mp hbytes
      have hle : S.sizeofSlice + (len.val + S.sentinelCount) * S.sizeofT.val ≤ S.header.val := hroom
      have hpos : 0 < (len.val + S.sentinelCount) * S.sizeofT.val :=
        mul_pos (by omega) S.sizeofT_pos
      omega
  · intro h
    by_cases hwraps : Wraps S len
    · have hmake := make_of_request (A := A) (request_of_wraps hwraps)
      have hnone : A.allocate S.header.val.toNat S.align = none := h hwraps.1 hwraps.2
      rw [hnone] at hmake
      exact .inr (.inl ⟨_, congrArg Making.outcome hmake⟩)
    · rcases request_of_not_wraps hwraps with hfault | ⟨bytes, hvalue, hbytes⟩
      · exact .inl (congrArg Making.outcome (make_of_assertion hfault))
      · exact .inr (.inr ⟨bytes, congrArg Making.requested (make_of_request hvalue), hbytes.ge⟩)

/-- `Slice<u8, u8{0}>`. -/
def sentinelBytes : Layout where
  sizeofT := 1
  alignofT := 1
  hasSentinel := true
  align := 8
  sizeofT_pos := by decide
  alignofT_singleBit := ⟨0, rfl⟩
  align_lt := by decide
  align_singleBit := ⟨3, rfl⟩
  default_le := by decide

/-- One page, for what fits in it. -/
def onePage : Allocator where
  allocate bytes align := if bytes ≤ 4096 ∧ align ∣ 4096 then some 4096 else none
  aligned := by
    intro bytes align this h
    split at h
    · next hpage =>
        cases h
        exact hpage.2
    · cases h

def longest : IntType.usize.Val := ⟨2 ^ 64 - 1, by decide⟩

/-- Sixteen bytes, for all that the address space has. -/
theorem not_covers_longest :
    make sentinelBytes onePage longest = ⟨some ⟨16, by decide⟩, .fault .storeOutside⟩ ∧
      ¬ ∀ (S : Layout) (A : Allocator) (len : IntType.usize.Val), Covers S A len := by
  refine ⟨?_, ?_⟩
  · rw [make_of_request (request_of_wraps ⟨rfl, rfl⟩)]
    exact congrArg (Making.mk _) (congrArg (Checked.after true)
      (place_of_wraps (show sentinelBytes.align ∣ 4096 by decide) ⟨rfl, rfl⟩))
  · intro h
    exact absurd (covers_iff.mp (h sentinelBytes onePage longest) rfl rfl) (by decide)

end Shclog.Slice
