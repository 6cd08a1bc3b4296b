import Shclog.DualBuffer.Invariant
import Shclog.Lib.Image

/-! # Where the bytes are

What was copied is in three parts: the first is in the file, the second is what the kernel has to
write, or is writing, from one of the buffers, and the third is being gathered in the active one. -/

namespace Shclog.DualBuffer

open Lib EventedIo

variable {c : Config}

/-- What there is to know about the bytes. -/
structure Storage where
  ioBytes : Bool → Nat
  inFlight : Bool → Bool
  fileOffset : Nat
  activeBuffer : Bool
  memory : Nat → U8
  written : Nat → Nat
  file : Nat → Option U8
  place : Place

def State.storage (s : State c Device) : Storage where
  ioBytes := s.ioBytes
  inFlight := s.inFlight
  fileOffset := s.fileOffset
  activeBuffer := s.activeBuffer
  memory := s.memory
  written := s.written
  file := s.file
  place := s.ring.place

/-- Memory, as far as it can be read. -/
def mapped (memory : Nat → U8) (a : Nat) : Option U8 := some (memory a)

/-- How far the kernel has come with the bytes `l` that `sqe` tells it to write at `off`. -/
def Carrying (written : Nat → Nat) (file : Nat → Option U8) (sqe : Sqe) (off : Nat) (l : List U8) :
    Place → Prop
  | .free => False
  | .queued sqe' => sqe' = sqe
  | .working x => x.1 = sqe ∧ Image file off (l.take (written x.2))
  | .answered _ res => res.toInt < 0 ∨ Image file off (l.take res.toNat)

/-- The buffer `b` holds the bytes `l`, and the kernel has them to write at `off`. -/
structure Carries (c : Config) (s : Storage) (b : Bool) (off : Nat) (l : List U8) : Prop where
  len : s.ioBytes b = l.length
  memory : Image (mapped s.memory) (c.data b) l
  place : Carrying s.written s.file (c.request b l.length off).sqe off l s.place

/-- The buffer that the kernel has. -/
def Mode.out (mode : Mode) (s : Storage) : Option Bool :=
  match mode with
  | .published => some s.activeBuffer
  | _ => if s.inFlight (!s.activeBuffer) then some (!s.activeBuffer) else none

/-- How many of the `n` bytes that the kernel has to write are behind `file_offset`. -/
def Mode.told (mode : Mode) (n : Nat) : Nat :=
  match mode with
  | .published => 0
  | _ => n

/-- What the active buffer holds that the kernel has not been handed. -/
def Mode.Gathered (mode : Mode) (c : Config) (s : Storage) (filling : List U8) : Prop :=
  match mode with
  | .gathering => s.ioBytes s.activeBuffer = filling.length ∧
    Image (mapped s.memory) (c.data s.activeBuffer) filling
  | _ => filling = []

/-- What is in the file, what the kernel has to write, and what is being gathered. -/
structure Split (c : Config) (mode : Mode) (s : Storage) (settled flying filling : List U8) :
    Prop where
  file : Image s.file 0 settled
  above : ∀ i, settled.length + flying.length ≤ i → s.file i = none
  offset : s.fileOffset = settled.length + mode.told flying.length
  free : mode.out s = none → flying = [] ∧ s.place = .free
  carries : ∀ b, mode.out s = some b → Carries c s b settled.length flying
  active : mode.Gathered c s filling

/-- What was copied, in three parts. -/
def Parts (s : State c Device) (l : List U8) : Prop :=
  ∃ settled flying filling, l = settled ++ flying ++ filling ∧
    Split c s.mode s.storage settled flying filling

/-! ## The buffers -/

section

variable {memory : Nat → U8} {a : Nat} {b : Bool} {m l : List U8}

theorem store_inside : Image (mapped (store memory a m)) a m := by
  intro i x hx
  obtain ⟨hi, hget⟩ := List.getElem?_eq_some_iff.mp hx
  show some (if _ then _ else _) = _
  rw [if_pos ⟨by omega, by omega⟩, Nat.add_sub_cancel_left, List.getD_eq_getElem?_getD, hx]
  rfl

theorem store_outside {i : Nat} (h : i < a ∨ a + m.length ≤ i) :
    mapped (store memory a m) i = mapped memory i := by
  show some (if _ then _ else _) = _
  rw [if_neg (by omega)]
  rfl

/-- The two buffers are apart. -/
theorem data_apart (b : Bool) {i j : Nat} (hi : i < c.maxIoBytes) (hj : j < c.maxIoBytes) :
    c.data b + i ≠ c.data (!b) + j := by
  unfold Config.data
  cases b <;> simp <;> omega

/-- What is copied into one buffer leaves the other as it is. -/
theorem store_other (b : Bool) {off j : Nat} (hfits : off + m.length < c.maxIoBytes)
    (hj : j < c.maxIoBytes) :
    mapped (store memory (c.data b + off) m) (c.data (!b) + j) =
      mapped memory (c.data (!b) + j) := by
  apply store_outside
  by_contra hin
  rw [not_or, Nat.not_lt, Nat.not_le] at hin
  refine data_apart b (i := c.data (!b) + j - c.data b) (by omega) hj ?_
  omega

theorem toNat_data (b : Bool) : (BitVec.ofNat 64 (c.data b)).toNat = c.data b := by
  rw [BitVec.toNat_ofNat]
  apply Nat.mod_eq_of_lt
  have hmem := c.inMemory
  have hfits := c.fits
  unfold Config.data
  cases b <;> simp <;> omega

theorem toNat_len {n : Nat} (h : n < c.maxIoBytes) :
    ((BitVec.ofNat 64 n).setWidth 32).toNat = n := by
  have hsmall := c.small
  rw [BitVec.toNat_setWidth, BitVec.toNat_ofNat]
  omega

theorem toNat_ioBytes {n : Nat} (h : n < c.maxIoBytes) : (BitVec.ofNat 32 n).toNat = n := by
  have hsmall := c.small
  rw [BitVec.toNat_ofNat]
  omega

end

/-! ## The consumer -/

section

variable {s : Storage} {settled flying filling m : List U8} {mode : Mode}

theorem Mode.eq_of_out {b : Bool} (hmode : mode ≠ .published) (h : mode.out s = some b) :
    s.inFlight (!s.activeBuffer) = true ∧ b = !s.activeBuffer := by
  unfold Mode.out at h
  split at h
  · exact absurd rfl hmode
  · obtain ⟨hother, heq⟩ := Option.ite_none_right_eq_some.mp h
    cases heq
    exact ⟨hother, rfl⟩

/-- A round begins. -/
theorem Split.begin (h : Split c .resting s settled flying filling) :
    Split c .gathering { s with ioBytes := Function.update s.ioBytes s.activeBuffer 0 } settled
      flying [] := by
  refine ⟨h.file, h.above, h.offset, h.free, ?_, Function.update_self .., Image.nil⟩
  intro b hout
  obtain ⟨hlen, hmemory, hplace⟩ := h.carries b hout
  obtain ⟨-, rfl⟩ := Mode.eq_of_out Mode.noConfusion hout
  exact ⟨(Function.update_of_ne (by simp) ..).trans hlen, hmemory, hplace⟩

theorem Split.filling_eq_nil (h : Split c .gathering s settled flying filling)
    (hempty : s.ioBytes s.activeBuffer = 0) : filling = [] :=
  List.eq_nil_of_length_eq_zero (h.active.1.symm.trans hempty)

/-- A round ends with nothing gathered. -/
theorem Split.rest (h : Split c .gathering s settled flying []) :
    Split c .resting s settled flying [] :=
  ⟨h.file, h.above, h.offset, h.free, h.carries, rfl⟩

/-- **A message is copied** behind what was gathered; the other buffer keeps what it holds. -/
theorem Split.copy (h : Split c .gathering s settled flying filling)
    (hroom : ∀ b, s.ioBytes b < c.maxIoBytes)
    (hfits : s.ioBytes s.activeBuffer + m.length < c.maxIoBytes) :
    Split c .gathering { s with
      memory := store s.memory (c.data s.activeBuffer + s.ioBytes s.activeBuffer) m
      ioBytes := Function.update s.ioBytes s.activeBuffer
        (s.ioBytes s.activeBuffer + m.length) } settled flying (filling ++ m) := by
  obtain ⟨hlen, himage⟩ := h.active
  refine ⟨h.file, h.above, h.offset, h.free, ?_, ?_, ?_⟩
  · intro b hout
    obtain ⟨hflying, hmemory, hplace⟩ := h.carries b hout
    obtain ⟨-, rfl⟩ := Mode.eq_of_out Mode.noConfusion hout
    refine ⟨(Function.update_of_ne (by simp) ..).trans hflying, ?_, hplace⟩
    refine hmemory.congr ?_
    intro i hlow hhigh
    obtain ⟨j, rfl⟩ := Nat.exists_eq_add_of_le hlow
    have hother : s.ioBytes (!s.activeBuffer) = flying.length := hflying
    have := hroom (!s.activeBuffer)
    exact store_other _ hfits (by omega)
  · show Function.update s.ioBytes s.activeBuffer _ s.activeBuffer = _
    rw [Function.update_self, List.length_append, hlen]
  · apply Image.append
    · refine himage.congr ?_
      intro i hlow hhigh
      apply store_outside
      left
      omega
    · rw [← hlen]
      exact store_inside

/-! ## The ring -/

theorem Split.flying_eq_nil (h : Split c .gathering s settled flying filling)
    (hother : s.inFlight (!s.activeBuffer) = false) : flying = [] := by
  refine (h.free ?_).1
  show (if s.inFlight (!s.activeBuffer) then _ else _) = _
  rw [hother]
  rfl

/-- **The active buffer is handed to the kernel**, which has no other. -/
theorem Split.publish (h : Split c .gathering s settled [] filling) :
    Split c .published { s with
      place := .queued (c.request s.activeBuffer (s.ioBytes s.activeBuffer) s.fileOffset).sqe }
      settled filling [] := by
  obtain ⟨hlen, himage⟩ := h.active
  refine ⟨h.file, ?_, h.offset, (fun hout => by cases hout), ?_, rfl⟩
  · intro i hi
    exact h.above i (Nat.le_trans (Nat.le_add_right _ _) hi)
  · intro b hout
    obtain rfl : s.activeBuffer = b := Option.some_inj.mp hout
    refine ⟨hlen, himage, ?_⟩
    have hoffset : s.fileOffset = settled.length := h.offset
    show Request.sqe _ = Request.sqe _
    rw [hlen, hoffset]

/-- The consumer goes on with the other buffer. -/
theorem Split.enter (h : Split c .published s settled flying filling) :
    Split c .resting { s with
      fileOffset := s.fileOffset + s.ioBytes s.activeBuffer
      inFlight := Function.update s.inFlight s.activeBuffer true
      activeBuffer := !s.activeBuffer } settled flying [] := by
  obtain ⟨hlen, hmemory, hplace⟩ := h.carries _ rfl
  refine ⟨h.file, h.above, ?_, ?_, ?_, rfl⟩
  · show s.fileOffset + s.ioBytes s.activeBuffer = _
    rw [h.offset, hlen]
    rfl
  · intro hout
    have hset : Function.update s.inFlight s.activeBuffer true (!!s.activeBuffer) = true := by
      rw [Bool.not_not, Function.update_self]
    have hout : (if Function.update s.inFlight s.activeBuffer true (!!s.activeBuffer) then _
        else _) = none := hout
    rw [if_pos hset] at hout
    cases hout
  · intro b hout
    obtain ⟨-, rfl⟩ := Mode.eq_of_out Mode.noConfusion hout
    show Carries c _ (!!s.activeBuffer) _ _
    rw [Bool.not_not]
    exact ⟨hlen, hmemory, hplace⟩

/-- **The kernel is done** with all that it had to write. -/
theorem Split.reap (h : Split c mode s settled flying filling) (hmode : mode ≠ .published)
    (hother : s.inFlight (!s.activeBuffer) = true) {x : Sqe × Nat} {rc : I32}
    (hplace : s.place = .answered x rc) (hrc : 0 ≤ rc.toInt)
    (hlen : rc.toNat = s.ioBytes (!s.activeBuffer)) :
    Split c mode { s with
      inFlight := Function.update s.inFlight (!s.activeBuffer) false
      place := .free } (settled ++ flying) [] filling := by
  have hout : mode.out s = some (!s.activeBuffer) := by
    unfold Mode.out
    split
    · exact absurd rfl hmode
    · exact if_pos hother
  obtain ⟨hflying, hmemory, hcarry⟩ := h.carries _ hout
  rw [hplace] at hcarry
  have hwritten : Image s.file settled.length flying := by
    rcases hcarry with hneg | himage
    · omega
    · rwa [hlen, hflying, List.take_length] at himage
  refine ⟨h.file.append (by rwa [Nat.zero_add]), ?_, ?_, fun _ => ⟨rfl, rfl⟩, ?_, ?_⟩
  · intro i hi
    exact h.above i (by rwa [List.length_append] at hi)
  · have hoffset := h.offset
    cases mode with
    | published => exact absurd rfl hmode
    | _ => exact hoffset.trans List.length_append.symm
  · intro b hb
    obtain ⟨hset, -⟩ := Mode.eq_of_out hmode hb
    have hset : Function.update s.inFlight (!s.activeBuffer) false (!s.activeBuffer) = true := hset
    rw [Function.update_self] at hset
    cases hset
  · exact h.active

/-- The kernel goes on to something that goes with the same bytes. -/
theorem Split.proceed (h : Split c mode s settled flying filling) {written : Nat → Nat} {p : Place}
    (hfree : s.place ≠ .free)
    (hcarry : ∀ sqe off l, Carrying s.written s.file sqe off l s.place →
      Carrying written s.file sqe off l p) :
    Split c mode { s with written, place := p } settled flying filling := by
  refine ⟨h.file, h.above, h.offset, ?_, ?_, h.active⟩
  · intro hout
    exact absurd (h.free hout).2 hfree
  · intro b hout
    obtain ⟨hlen, hmemory, hplace⟩ := h.carries b hout
    exact ⟨hlen, hmemory, hcarry _ _ _ hplace⟩

theorem Split.read (h : Split c mode s settled flying filling) {sqe : Sqe} (i : Nat)
    (hplace : s.place = .queued sqe) :
    Split c mode { s with
      written := Function.update s.written i 0
      place := .working (sqe, i) } settled flying filling := by
  refine h.proceed (by simp [hplace]) ?_
  intro sqe' off l hcarry
  rw [hplace] at hcarry
  refine ⟨hcarry, ?_⟩
  rw [Function.update_self]
  exact Image.nil

theorem Split.answer (h : Split c mode s settled flying filling) {x : Sqe × Nat} {res : I32}
    (hplace : s.place = .working x) (hres : res.toInt < 0 ∨ res.toNat = s.written x.2) :
    Split c mode { s with place := .answered x res } settled flying filling := by
  refine h.proceed (by simp [hplace]) ?_
  intro sqe off l hcarry
  rw [hplace] at hcarry
  rcases hres with hneg | heq
  · exact .inl hneg
  · exact .inr (heq ▸ hcarry.2)

/-- What the kernel works on is what it was handed. -/
theorem Split.working (h : Split c mode s settled flying filling) {x : Sqe × Nat}
    (hplace : s.place = .working x) (hroom : ∀ b, s.ioBytes b < c.maxIoBytes)
    (hsize : settled.length < 2 ^ 64) : ∃ b, mode.out s = some b ∧
      Carries c s b settled.length flying ∧ x.1.addr.toNat = c.data b ∧
      x.1.len.toNat = flying.length ∧ x.1.off.toNat = settled.length := by
  cases hout : mode.out s with
  | none =>
      have := (h.free hout).2
      rw [hplace] at this
      cases this
  | some b =>
      have hcarry := (h.carries b hout).place
      rw [hplace] at hcarry
      refine ⟨b, rfl, h.carries b hout, ?_, ?_, ?_⟩
      · rw [hcarry.1]
        exact toNat_data b
      · rw [hcarry.1]
        exact toNat_len ((h.carries b hout).len ▸ hroom b)
      · rw [hcarry.1]
        exact Nat.mod_eq_of_lt hsize

/-- **The kernel writes another byte**, the next of those that it was handed. -/
theorem Split.write (h : Split c mode s settled flying filling) {x : Sqe × Nat}
    (hplace : s.place = .working x) (hroom : ∀ b, s.ioBytes b < c.maxIoBytes)
    (hsize : settled.length < 2 ^ 64) (hmore : s.written x.2 < x.1.len.toNat) :
    Split c mode { s with
      file := Function.update s.file (x.1.off.toNat + s.written x.2)
        (some (s.memory (x.1.addr.toNat + s.written x.2)))
      written := Function.update s.written x.2 (s.written x.2 + 1) } settled flying filling := by
  obtain ⟨b, hb, ⟨hlen, hmemory, hcarry⟩, haddr, hbytes, hoff⟩ := h.working hplace hroom hsize
  rw [hbytes] at hmore
  rw [haddr, hoff]
  refine ⟨?_, ?_, h.offset, h.free, ?_, h.active⟩
  · refine h.file.congr ?_
    intro i _ hi
    exact Function.update_of_ne (by omega) ..
  · intro i hi
    exact (Function.update_of_ne (by omega) ..).trans (h.above i hi)
  · intro b' hb'
    obtain rfl : b = b' := Option.some_inj.mp (hb.symm.trans hb')
    refine ⟨hlen, hmemory, ?_⟩
    rw [hplace] at hcarry ⊢
    refine ⟨hcarry.1, ?_⟩
    show Image _ _ (flying.take (Function.update s.written x.2 _ x.2))
    rw [Function.update_self]
    apply hcarry.2.snoc
    rw [List.getElem?_eq_getElem hmore]
    exact (hmemory _ _ (List.getElem?_eq_getElem hmore)).symm

end

end Shclog.DualBuffer
