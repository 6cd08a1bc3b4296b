import Shclog.EventedIo.Pointers

/-! # Where `create` puts everything

The pointers that `create` makes go into three regions, or two. If the kernel keeps to its word about
them, what is behind the pointers lies apart and inside of what is mapped: the lengths that are asked
for are enough. -/

namespace Shclog.EventedIo

open Lib

/-! ## What `create` makes -/

/-- Everything is where the offsets say, in mappings of the lengths that are asked for. -/
structure Mapped.Follows (m : Mapped) (params : Params) : Prop where
  sqHead : m.sqHead = m.sqPtr.ptr + params.sqOff.head.setWidth 64
  sqTail : m.sqTail = m.sqPtr.ptr + params.sqOff.tail.setWidth 64
  sqFlags : m.sqFlags = m.sqPtr.ptr + params.sqOff.flags.setWidth 64
  sqArray : m.sqArray = m.sqPtr.ptr + params.sqOff.array.setWidth 64
  cqHead : m.cqHead = (m.cqPtr.getD m.sqPtr).ptr + params.cqOff.head.setWidth 64
  cqTail : m.cqTail = (m.cqPtr.getD m.sqPtr).ptr + params.cqOff.tail.setWidth 64
  cqes : m.cqes = (m.cqPtr.getD m.sqPtr).ptr + params.cqOff.cqes.setWidth 64
  sqSize : m.sqPtr.size = params.ringSize
  cqPtr : m.cqPtr.isSome ↔ ¬ params.singleMmap
  cqSize : ∀ p ∈ m.cqPtr, p.size = params.cqSize
  sqesSize : m.sqes.size = params.sqEntries.setWidth 64 * sizeofSqe * sizeofSqe

theorem sizes_of_mapRings {build : Build} {kernel : Kernel} {fd : I32} {params : Params}
    {sq_ptr : UniquePtr} {cq_ptr : Option UniquePtr}
    (h : (mapRings build kernel fd params).result = .ok (sq_ptr, cq_ptr)) :
    sq_ptr.size = params.ringSize ∧ (cq_ptr.isSome ↔ ¬ params.singleMmap) ∧
      ∀ p ∈ cq_ptr, p.size = params.cqSize := by
  obtain ⟨⟨-, rfl⟩, -⟩ := exists_mapRings.mp ⟨cq_ptr, h⟩
  refine ⟨rfl, ?_⟩
  unfold mapRings at h
  obtain ⟨_, -, h⟩ := Logged.result_bind_ok.mp h
  by_cases hsingle : params.singleMmap
  · rw [if_pos hsingle, Logged.result_pure, Prod.mk.injEq] at h
    obtain ⟨-, rfl⟩ := h
    simp [hsingle]
  · rw [if_neg hsingle] at h
    obtain ⟨q, hq, h⟩ := Logged.result_bind_ok.mp h
    rw [Logged.result_pure, Prod.mk.injEq] at h
    obtain ⟨-, rfl⟩ := h
    rw [Logged.result_mapStop, result_ioUringMmap, mul_sizeofU8] at hq
    obtain ⟨-, rfl⟩ := hq
    simp [hsingle]

/-- **What `create` makes** follows the kernel's offsets. -/
theorem follows_create {build : Build} {kernel : Kernel} {capacity flags : U32} {m : Mapped}
    (h : (create build kernel capacity flags).result = .ok m) :
    m.Follows (kernel.params capacity flags) := by
  unfold create at h
  split at h
  · exact absurd h Logged.result_stop
  · obtain ⟨⟨fd, params⟩, hsetup, h⟩ := Logged.result_bind_ok.mp h
    rw [Logged.result_mapStop, result_ioUringSetup, Prod.mk.injEq] at hsetup
    obtain ⟨-, rfl, rfl⟩ := hsetup
    obtain ⟨⟨sq_ptr, cq_ptr⟩, hrings, h⟩ := Logged.result_bind_ok.mp h
    obtain ⟨hsq, hcq, hcqSize⟩ := sizes_of_mapRings hrings
    unfold assemble at h
    simp only [Logged.result_bind_ok, result_ptrCast, Logged.result_mapStop,
      result_ioUringMmap] at h
    obtain ⟨_, ⟨-, rfl⟩, _, ⟨-, rfl⟩, _, ⟨-, rfl⟩, _, ⟨-, rfl⟩, _, ⟨-, rfl⟩, _, ⟨-, rfl⟩, _,
      ⟨-, rfl⟩, _, ⟨-, rfl⟩, _, ⟨-, rfl⟩, _, ⟨-, rfl⟩, _, ⟨-, rfl⟩, _, ⟨-, rfl⟩, _, ⟨-, rfl⟩, h⟩ := h
    split at h
    · rw [Logged.result_pure] at h
      subst h
      exact ⟨rfl, rfl, rfl, rfl, rfl, rfl, rfl, hsq, hcq, hcqSize, rfl⟩
    · exact absurd h Logged.result_stop

/-! ## What the kernel promises -/

/-- What is mapped. -/
inductive Region where
  | sqRing
  | cqRing
  | sqes

/-- The completion ring may be in the region of the submission ring. -/
def Region.Used (m : Mapped) : Region → Prop
  | cqRing => m.cqPtr.isSome
  | _ => True

def Region.mapping (m : Mapped) : Region → UniquePtr
  | sqRing => m.sqPtr
  | cqRing => m.cqPtr.getD m.sqPtr
  | sqes => m.sqes

/-- What is in the regions. -/
inductive Part where
  | sqHead
  | sqTail
  | sqFlags
  | sqArray
  | sqes
  | cqHead
  | cqTail
  | cqes
  deriving DecidableEq

namespace Part

def region (params : Params) : Part → Region
  | sqHead | sqTail | sqFlags | sqArray => .sqRing
  | sqes => .sqes
  | cqHead | cqTail | cqes => if params.singleMmap then .sqRing else .cqRing

def offset (params : Params) : Part → Nat
  | sqHead => params.sqOff.head.toNat
  | sqTail => params.sqOff.tail.toNat
  | sqFlags => params.sqOff.flags.toNat
  | sqArray => params.sqOff.array.toNat
  | sqes => 0
  | cqHead => params.cqOff.head.toNat
  | cqTail => params.cqOff.tail.toNat
  | cqes => params.cqOff.cqes.toNat

/-- How many bytes it has. -/
def size (params : Params) : Part → Nat
  | sqArray => params.sqEntries.toNat * 4
  | sqes => params.sqEntries.toNat * 64
  | cqes => params.cqEntries.toNat * 16
  | _ => 4

/-- Where it is. -/
def start (params : Params) (m : Mapped) (p : Part) : Nat :=
  ((p.region params).mapping m).ptr.toNat + p.offset params

end Part

/-- A mapping is of the length that was asked for, and does not overlap another. -/
structure Mapped.Backed (m : Mapped) (f : Memory U8) : Prop where
  bounded : ∀ r : Region, r.Used m → (r.mapping m).ptr.toNat + (r.mapping m).size.toNat ≤ 2 ^ 64
  present : ∀ r : Region, r.Used m → ∀ i < (r.mapping m).size.toNat,
    (f ((r.mapping m).ptr.toNat + i)).isSome
  apart : Apart (Region.Used m) (fun r => (r.mapping m).ptr.toNat)
    (fun r => (r.mapping m).size.toNat)

/-- The kernel says how many entries there are, and where it is free to put what, but for overlaps and
for words that are not in their ring; and there is nothing yet in what it puts there. -/
structure Mapped.SetUp (m : Mapped) (params : Params) (f : Memory U8) : Prop where
  sqMask : m.sqMask.toNat + 1 = params.sqEntries.toNat
  cqMask : m.cqMask.toNat + 1 = params.cqEntries.toNat
  sqWords : ∀ p ∈ [Part.sqHead, .sqTail, .sqFlags], p.offset params + 4 ≤ params.sqRingBytes
  cqWords : ∀ p ∈ [Part.cqHead, .cqTail], p.offset params + 4 ≤ params.cqRingBytes
  apart : ∀ p p' : Part, p ≠ p' → p.region params = p'.region params →
    p.offset params + p.size params ≤ p'.offset params ∨
      p'.offset params + p'.size params ≤ p.offset params
  zero : ∀ p : Part, ∀ i < p.size params, ∀ b, f (p.start params m + i) = some b → b = 0

section

variable {m : Mapped} {params : Params} {f : Memory U8}

/-! ## Parts of the regions -/

theorem Mapped.Follows.used (h : m.Follows params) (p : Part) : (p.region params).Used m := by
  have hcq : (if params.singleMmap then Region.sqRing else .cqRing).Used m := by
    split
    · trivial
    · next hsingle => exact h.cqPtr.mpr hsingle
  cases p with
  | cqHead | cqTail | cqes => exact hcq
  | _ => trivial

/-- The completion ring is in a mapping that is long enough, whichever it is. -/
theorem Mapped.Follows.cqRingBytes_le (h : m.Follows params) :
    params.cqRingBytes
      ≤ ((if params.singleMmap then Region.sqRing else .cqRing).mapping m).size.toNat := by
  by_cases hsingle : params.singleMmap
  · rw [if_pos hsingle]
    show _ ≤ m.sqPtr.size.toNat
    rw [h.sqSize, Params.toNat_ringSize, Params.bytesAt, if_pos rfl, if_pos hsingle]
    exact Nat.le_max_right ..
  · rw [if_neg hsingle]
    obtain ⟨p, hp⟩ := Option.isSome_iff_exists.mp (h.cqPtr.mpr hsingle)
    show _ ≤ (m.cqPtr.getD m.sqPtr).size.toNat
    rw [hp, Option.getD_some, h.cqSize p hp, Params.toNat_cqSize]

theorem Mapped.Follows.sqRingBytes_le (h : m.Follows params) :
    params.sqRingBytes ≤ m.sqPtr.size.toNat := by
  rw [h.sqSize, Params.toNat_ringSize, Params.bytesAt, if_pos rfl]
  split
  · exact Nat.le_max_left ..
  · exact Nat.le_refl _

/-- **The mappings are long enough** for what is in them. -/
theorem Mapped.Follows.part_le (h : m.Follows params) (hset : m.SetUp params f) (p : Part) :
    p.offset params + p.size params ≤ ((p.region params).mapping m).size.toNat := by
  have hsq := h.sqRingBytes_le
  have hcq := h.cqRingBytes_le
  cases p with
  | sqHead => exact (hset.sqWords .sqHead (by simp)).trans hsq
  | sqTail => exact (hset.sqWords .sqTail (by simp)).trans hsq
  | sqFlags => exact (hset.sqWords .sqFlags (by simp)).trans hsq
  | sqArray => exact hsq
  | sqes =>
      show 0 + params.sqEntries.toNat * 64 ≤ m.sqes.size.toNat
      rw [h.sqesSize, toNat_sqesLength]
      omega
  | cqHead => exact (hset.cqWords .cqHead (by simp)).trans hcq
  | cqTail => exact (hset.cqWords .cqTail (by simp)).trans hcq
  | cqes => exact hcq

theorem Mapped.Follows.parts_apart (h : m.Follows params) (hback : m.Backed f)
    (hset : m.SetUp params f) :
    Apart (fun _ => True) (Part.start params m) (Part.size params) :=
  hback.apart.inside (fun p _ => h.used p) (fun _ _ => rfl) (fun p _ => h.part_le hset p)
    fun p p' _ _ hne => hset.apart p p' hne

/-! ## Objects in the parts -/

namespace Object

def part : Object → Part
  | sqHead => .sqHead
  | sqTail => .sqTail
  | sqFlags => .sqFlags
  | array _ => .sqArray
  | sqe _ => .sqes
  | cqHead => .cqHead
  | cqTail => .cqTail
  | res _ => .cqes

/-- How far into its part it is. -/
def within : Object → Nat
  | array index => index.toNat * 4
  | sqe index => index.toNat * 64
  | res index => index.toNat * 16 + 8
  | _ => 0

end Object

theorem Mapped.SetUp.object_le (hset : m.SetUp params f) {o : Object} (hvalid : o.Valid m) :
    o.within + o.size ≤ o.part.size params := by
  have hsq := hset.sqMask
  have hcq := hset.cqMask
  cases o with
  | array index =>
      have hle : index.toNat ≤ m.sqMask.toNat := hvalid
      show index.toNat * 4 + 4 ≤ params.sqEntries.toNat * 4
      omega
  | sqe index =>
      have hle : index.toNat ≤ m.sqMask.toNat := hvalid
      show index.toNat * 64 + 64 ≤ params.sqEntries.toNat * 64
      omega
  | res index =>
      have hle : index.toNat ≤ m.cqMask.toNat := hvalid
      show index.toNat * 16 + 8 + 4 ≤ params.cqEntries.toNat * 16
      omega
  | _ => exact Nat.le_refl _

/-- Two of one kind do not overlap. -/
theorem Object.apart_of_part {o o' : Object} (hne : o ≠ o') (hpart : o.part = o'.part) :
    o.within + o.size ≤ o'.within ∨ o'.within + o'.size ≤ o.within := by
  cases o <;> cases o' <;> first | contradiction | skip
  all_goals
    next i j =>
      have hij : i.toNat ≠ j.toNat := fun h => hne (congrArg _ (BitVec.eq_of_toNat_eq h))
      simp only [within, size]
      omega

/-- How far it is from the start of its region. -/
def Object.displacement (params : Params) : Object → U64
  | sqHead => params.sqOff.head.setWidth 64
  | sqTail => params.sqOff.tail.setWidth 64
  | sqFlags => params.sqOff.flags.setWidth 64
  | array index => params.sqOff.array.setWidth 64 + index.setWidth 64 * sizeofU32
  | sqe index => index.setWidth 64 * sizeofSqe
  | cqHead => params.cqOff.head.setWidth 64
  | cqTail => params.cqOff.tail.setWidth 64
  | res index => params.cqOff.cqes.setWidth 64 + index.setWidth 64 * sizeofCqe + 8

theorem Object.toNat_displacement (params : Params) (o : Object) :
    (o.displacement params).toNat = o.part.offset params + o.within := by
  have hword : ∀ off : U32, (off.setWidth 64).toNat = off.toNat := by
    intro off
    rw [BitVec.toNat_setWidth]
    exact Nat.mod_eq_of_lt (off.isLt.trans (by decide))
  cases o with
  | array index => exact toNat_off_add_mul _ _ (by decide)
  | sqe index =>
      have h := toNat_off_add_mul 0 index (k := sizeofSqe) (by decide)
      rwa [show (0 : U32).setWidth 64 = 0#64 from rfl, BitVec.zero_add] at h
  | res index =>
      have h := toNat_off_add_mul params.cqOff.cqes index (k := sizeofCqe) (by decide)
      have hcqes := params.cqOff.cqes.isLt
      have hindex := index.isLt
      have hsize : sizeofCqe.toNat = 16 := rfl
      rw [displacement, BitVec.toNat_add, h, hsize]
      show (_ + 8) % 2 ^ 64 = params.cqOff.cqes.toNat + (index.toNat * 16 + 8)
      omega
  | _ => exact hword _

theorem Mapped.Follows.cqRing (h : m.Follows params) :
    (if params.singleMmap then Region.sqRing else .cqRing).mapping m = m.cqPtr.getD m.sqPtr := by
  split
  · next hsingle =>
      have hnone : m.cqPtr = none := by
        rw [← Option.not_isSome_iff_eq_none, h.cqPtr]
        exact not_not_intro hsingle
      rw [hnone]
      rfl
  · rfl

/-- **Where an object is.** -/
theorem Mapped.Follows.addr_eq (h : m.Follows params) (o : Object) :
    o.addr m = ((o.part.region params).mapping m).ptr + o.displacement params := by
  cases o with
  | sqHead => exact h.sqHead
  | sqTail => exact h.sqTail
  | sqFlags => exact h.sqFlags
  | array index =>
      rw [Object.addr, Mapped.arrayAt, h.sqArray, BitVec.add_assoc]
      rfl
  | sqe index => rfl
  | cqHead => exact h.cqHead.trans (by rw [← h.cqRing]; rfl)
  | cqTail => exact h.cqTail.trans (by rw [← h.cqRing]; rfl)
  | res index =>
      rw [Object.addr, Mapped.resAt, h.cqes, ← h.cqRing, BitVec.add_assoc, ← BitVec.add_assoc _ _ 8]
      rfl

theorem Mapped.Follows.toNat_addr (h : m.Follows params) (hback : m.Backed f)
    (hset : m.SetUp params f) {o : Object} (hvalid : o.Valid m) :
    (o.addr m).toNat = o.part.start params m + o.within := by
  have hpart := h.part_le hset o.part
  have hobject := hset.object_le hvalid
  have hbounded := hback.bounded _ (h.used o.part)
  have hsize : 0 < o.size := by
    cases o <;> exact Nat.succ_pos _
  have hlt : ((o.part.region params).mapping m).ptr.toNat + (o.displacement params).toNat
      < 2 ^ 64 := by
    rw [o.toNat_displacement]
    omega
  rw [h.addr_eq, BitVec.toNat_add, Nat.mod_eq_of_lt hlt, o.toNat_displacement, ← Nat.add_assoc]
  rfl

theorem Mapped.Follows.disjoint (h : m.Follows params) (hback : m.Backed f)
    (hset : m.SetUp params f) : m.Disjoint :=
  (h.parts_apart hback hset).inside (fun _ _ => trivial) (fun _ => h.toNat_addr hback hset)
    (fun _ => hset.object_le) fun _ _ _ _ => Object.apart_of_part

/-! ## What is there at first -/

theorem Object.bytes_object (m : Mapped) (o : Object) :
    o.bytes m.object = List.replicate o.size 0 := by
  have hword : leBytes 4 (0 : U32).toNat = List.replicate 4 0 := by decide
  have hsqe : ({} : Sqe).bytes = List.replicate 64 0 := by decide +kernel
  cases o with
  | sqe index => exact hsqe
  | _ => exact hword

/-- **At first** there are zeros behind the pointers. -/
theorem Mapped.Follows.shows (h : m.Follows params) (hback : m.Backed f) (hset : m.SetUp params f) :
    Shows m f m.object := by
  refine ⟨rfl, ?_, fun _ _ => Nat.zero_le _⟩
  intro o hvalid i x hx
  have hpart := h.part_le hset o.part
  have hobject := hset.object_le hvalid
  rw [o.bytes_object, List.getElem?_replicate] at hx
  obtain ⟨hi, hzero⟩ := Option.ite_none_right_eq_some.mp hx
  cases hzero
  dsimp only
  rw [h.toNat_addr hback hset hvalid, Nat.add_assoc]
  have hthere := hback.present _ (h.used o.part) (o.part.offset params + (o.within + i)) (by omega)
  rw [← Nat.add_assoc] at hthere
  obtain ⟨b, hb⟩ := Option.isSome_iff_exists.mp hthere
  exact hb.trans (congrArg some (hset.zero o.part (o.within + i) (by omega) b hb))

/-! ## Runs -/

/-- **Runs on what `create` makes** are those of the machine on a ring in which nothing has happened
yet, and in none of them memory is used that is not there. -/
theorem runs_on_mappings {build : Build} {kernel : Kernel} {capacity flags : U32} {m : Mapped}
    {f : Memory U8} (hcreate : (create build kernel capacity flags).result = .ok m)
    (hback : m.Backed f) (hset : m.SetUp (kernel.params capacity flags) f) (tr : List Event) :
    ((∃ S, Lib.Run (Raw.Step m) (Raw.idle f) tr S) ↔ ∃ s, Lib.Run Step (idle m.object) tr s) ∧
      ∀ S, Lib.Run (Raw.Step m) (Raw.idle f) tr S → ∀ mv, S.move m mv ≠ none := by
  have hfollows := follows_create hcreate
  have hdisjoint := hfollows.disjoint hback hset
  have hshows := hfollows.shows hback hset
  refine ⟨⟨?_, ?_⟩, ?_⟩
  · rintro ⟨S, hrun⟩
    obtain ⟨s, hrun, -⟩ := run_of_raw hdisjoint hshows hrun
    exact ⟨s, hrun⟩
  · rintro ⟨s, hrun⟩
    obtain ⟨S, hrun, -⟩ := raw_of_run hdisjoint hshows hrun
    exact ⟨S, hrun⟩
  · intro S hrun mv
    obtain ⟨s, -, hS⟩ := run_of_raw hdisjoint hshows hrun
    exact move_ne_none hdisjoint hS mv

end

/-! ### Two mappings -/

/-- One entry to submit and two for completions, in a ring at 4096; the submission entries are at
8192. -/
def twoMappings : Kernel where
  ioUringSetup _ _ :=
    (3, 0, ⟨1, 2, featSingleMmap, ⟨0, 4, 8, 12, 16, 64⟩, ⟨20, 24, 28, 32, 36, 128⟩⟩)
  mmap _ _ offset := (if offset = offSqes then 8192 else 4096, 0)
  load p := if p = 4124 then 1 else 0
  allocates := true
  registerRingFd _ := none

namespace twoMappings

def mapped : Mapped where
  ringFd := 3
  sqPtr := ⟨4096, 160⟩
  cqPtr := none
  sqHead := 4096
  sqTail := 4100
  sqFlags := 4108
  sqArray := 4160
  sqDropped := 4112
  sqMask := 0
  sqes := ⟨8192, 4096⟩
  cqHead := 4116
  cqTail := 4120
  cqFlags := 4128
  cqOverflow := 4132
  cqMask := 1
  cqes := 4224
  isSqPoll := false
  registeredRingFd := none

/-- Nothing but the two mappings, with the mask of the completion ring in it. -/
def memory : Memory U8 := fun x =>
  if 4096 ≤ x ∧ x < 4256 then some (if x = 4124 then 1 else 0)
  else if 8192 ≤ x ∧ x < 12288 then some 0
  else none

theorem creates : (create .debug twoMappings 1 0).result = .ok mapped := rfl

theorem backed : mapped.Backed memory where
  bounded r _ := by
    cases r <;> decide
  present r h i hi := by
    cases r with
    | sqRing =>
        have hi : i < 160 := hi
        have hin : 4096 ≤ 4096 + i ∧ 4096 + i < 4256 := by omega
        exact (congrArg Option.isSome (if_pos hin)).trans rfl
    | cqRing => cases h
    | sqes =>
        have hi : i < 4096 := hi
        have hout : ¬ (4096 ≤ 8192 + i ∧ 8192 + i < 4256) := by omega
        have hin : 8192 ≤ 8192 + i ∧ 8192 + i < 12288 := by omega
        exact (congrArg Option.isSome ((if_neg hout).trans (if_pos hin))).trans rfl
  apart r r' h h' hne := by
    cases r <;> cases r' <;> first | contradiction | decide

theorem memory_eq {x : Nat} (hx : x ≠ 4124) {b : U8} (h : memory x = some b) : b = 0 := by
  unfold memory at h
  rw [if_neg hx] at h
  split at h
  · cases h
    rfl
  · split at h
    · cases h
      rfl
    · cases h

theorem setUp : mapped.SetUp (twoMappings.params 1 0) memory where
  sqMask := rfl
  cqMask := rfl
  sqWords := by decide
  cqWords := by decide
  apart p p' hne hregion := by
    cases p <;> cases p' <;> first | contradiction | decide
  zero p i hi b h := by
    have hpart : p.start (twoMappings.params 1 0) mapped + p.size (twoMappings.params 1 0) ≤ 4124 ∨
        4124 < p.start (twoMappings.params 1 0) mapped := by
      cases p <;> decide
    exact memory_eq (by omega) h

end twoMappings

theorem runs_on_twoMappings :
    let tr := [.pushCalled (writeFrom 0), .tailLoaded, .granted 0]
    ((∃ S, Lib.Run (Raw.Step twoMappings.mapped) (Raw.idle twoMappings.memory) tr S) ↔
        ∃ s, Lib.Run Step (idle twoMappings.mapped.object) tr s) ∧
      ∀ S, Lib.Run (Raw.Step twoMappings.mapped) (Raw.idle twoMappings.memory) tr S →
        ∀ mv, S.move twoMappings.mapped mv ≠ none :=
  runs_on_mappings twoMappings.creates twoMappings.backed twoMappings.setUp _

end Shclog.EventedIo
