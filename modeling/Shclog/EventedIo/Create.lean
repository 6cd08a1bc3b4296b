import Shclog.EventedIo.Basic
import Shclog.Lib.Logged

/-! # `EventedIo::create`

How the rings come to be: the kernel sets them up and says where in them everything is, and three
regions of its memory are mapped, or two where the rings share one. What the kernel answers is a
parameter. The record of a call are the lengths that it asks `::mmap` for and those that it leaves
with a deleter for `munmap`. The build is a parameter, too: in a debug build an error nobody expects
aborts, and so does a pointer that is not aligned. -/

namespace Shclog.EventedIo

open Lib

/-! ## The kernel -/

/-- `io_sqring_offsets`. -/
structure SqOffsets where
  head : U32
  tail : U32
  ringMask : U32
  flags : U32
  dropped : U32
  array : U32

/-- `io_cqring_offsets`. -/
structure CqOffsets where
  head : U32
  tail : U32
  ringMask : U32
  flags : U32
  overflow : U32
  cqes : U32

/-- `io_uring_params`, as the kernel leaves them. -/
structure Params where
  sqEntries : U32
  cqEntries : U32
  features : U32
  sqOff : SqOffsets
  cqOff : CqOffsets

/-- What the calls return, each with the `errno` after it; what is in the mapped memory; and whether
there is memory left for the object. -/
structure Kernel where
  ioUringSetup : (capacity flags : U32) → I64 × I32 × Params
  mmap : (bytes : Usize) → (fd : I32) → (offset : I64) → U64 × I32
  load : U64 → U32
  allocates : Bool
  registerRingFd : I32 → Option I32

def sizeofU8 : Usize := 1
def sizeofU32 : Usize := 4
def sizeofCqe : Usize := 16
def sizeofSqe : Usize := 64

def offSqRing : U64 := 0
def offCqRing : U64 := 0x8000000
def offSqes : U64 := 0x10000000
def featSingleMmap : U32 := 1
def setupSqpoll : U32 := 2

/-! ## The record -/

/-- A length, and the offset that says which region it is for. -/
inductive Length where
  | mmap (bytes : Usize) (offset : I64)
  | deleter (size : Usize) (offset : I64)
  deriving DecidableEq

/-- An abort, or an error that is returned. -/
inductive Stop (ε : Type) where
  | abort
  | returned (e : ε)
  deriving DecidableEq

/-- `debug_e_errno`, and after it the return of an error. -/
def debugEErrno {ε : Type} (build : Build) (e : ε) : Stop ε :=
  match build with
  | .debug => .abort
  | .release => .returned e

abbrev Recorded (ε α : Type) := Logged Length (Stop ε) α

/-- A `std::unique_ptr<R, MmapDeleter>` that is not null. -/
structure UniquePtr where
  ptr : U64
  size : Usize

/-! ## Setting up and mapping -/

inductive IoUringSetupError where
  | noSuchFd
  | permissionDenied
  | processFdQuotaExceeded
  | systemFdQuotaExceeded
  | outOfMemory
  | unexpected
  deriving DecidableEq

inductive MmapError where
  | accessDenied
  | permissionDenied
  | lockedMemoryLimitExceeded
  | badFileDescriptor
  | memoryMappingNotSupported
  | processFdQuotaExceeded
  | systemFdQuotaExceeded
  | outOfMemory
  | mappingAlreadyExists
  | unexpected
  deriving DecidableEq

inductive RingQueueAllocError where
  | outOfMemory
  | unexpected
  deriving DecidableEq

inductive CreateError where
  | invalidCapacity
  | unableToSetupRing
  | noAvailableFd
  | outOfMemory
  deriving DecidableEq

/-- The `switch` of `io_uring_setup`. -/
def IoUringSetupError.ofErrno (build : Build) (e : Errno) : Stop IoUringSetupError :=
  if e = Errno.mfile then .returned .processFdQuotaExceeded
  else if e = Errno.nfile then .returned .systemFdQuotaExceeded
  else if e = Errno.nomem then .returned .outOfMemory
  else if e = Errno.perm then .returned .permissionDenied
  else if e = Errno.nxio then .returned .noSuchFd
  else debugEErrno build .unexpected

/-- `io_uring_setup`. -/
def ioUringSetup (build : Build) (kernel : Kernel) (capacity flags : U32) :
    Recorded IoUringSetupError (I32 × Params) :=
  let (rc, errno, params) := kernel.ioUringSetup capacity flags
  let e := eErrno rc errno
  if e = Errno.success then pure (rc.setWidth 32, params)
  else .stop (IoUringSetupError.ofErrno build e)

/-- The `switch` of `mmap<R>`. -/
def MmapError.ofErrno (build : Build) (e : Errno) : Stop MmapError :=
  if e = Errno.acces ∨ e = Errno.txtbsy then .returned .accessDenied
  else if e = Errno.perm then .returned .permissionDenied
  else if e = Errno.again then .returned .lockedMemoryLimitExceeded
  else if e = Errno.badf then .returned .badFileDescriptor
  else if e = Errno.nodev then .returned .memoryMappingNotSupported
  else if e = Errno.mfile then .returned .processFdQuotaExceeded
  else if e = Errno.nfile then .returned .systemFdQuotaExceeded
  else if e = Errno.nomem then .returned .outOfMemory
  else if e = Errno.exist then .returned .mappingAlreadyExists
  else debugEErrno build .unexpected

/-- `mmap<R>`: `len` counts elements. -/
def mmap (build : Build) (kernel : Kernel) (sizeofR len : Usize) (fd : I32) (offset : I64) :
    Recorded MmapError UniquePtr := do
  let total_bytes := len * sizeofR
  Logged.tell (.mmap total_bytes offset)
  let (rc, errno) := kernel.mmap total_bytes fd offset
  let e := eErrnoPtr rc errno
  if e = Errno.success then do
    Logged.tell (.deleter total_bytes offset)
    pure ⟨rc, total_bytes⟩
  else Logged.stop (MmapError.ofErrno build e)

/-- `io_uring_mmap<T>`, which expects one error only. -/
def ioUringMmap (build : Build) (kernel : Kernel) (sizeofT : Usize) (ring_fd : I32) (size : Usize)
    (offset : U64) : Recorded RingQueueAllocError UniquePtr :=
  (mmap build kernel sizeofT size ring_fd offset).mapStop fun
    | .abort => .abort
    | .returned .outOfMemory => .returned .outOfMemory
    | .returned _ => debugEErrno build .unexpected

/-- `ptr_cast<To>`, to a type with the given alignment, which is asserted. -/
def ptrCast {ε : Type} (build : Build) (align : Nat) (p : U64) : Recorded ε U64 :=
  if build = .debug ∧ p.toNat % align ≠ 0 then .stop .abort else pure p

/-- What `create` makes of the errors of `io_uring_setup`. -/
def CreateError.ofSetup : Stop IoUringSetupError → Stop CreateError
  | .abort => .abort
  | .returned .processFdQuotaExceeded => .returned .noAvailableFd
  | .returned .systemFdQuotaExceeded => .returned .noAvailableFd
  | .returned .outOfMemory => .returned .outOfMemory
  | .returned _ => .returned .unableToSetupRing

/-- What `create` makes of the errors of `io_uring_mmap`. -/
def CreateError.ofMmap : Stop RingQueueAllocError → Stop CreateError
  | .abort => .abort
  | .returned .outOfMemory => .returned .outOfMemory
  | .returned _ => .returned .unableToSetupRing

/-! ## `create` -/

/-- What the constructor is given: the mappings, and where in them everything is. -/
structure Mapped where
  ringFd : I32
  sqPtr : UniquePtr
  cqPtr : Option UniquePtr
  sqHead : U64
  sqTail : U64
  sqFlags : U64
  sqArray : U64
  sqDropped : U64
  sqMask : U32
  sqes : UniquePtr
  cqHead : U64
  cqTail : U64
  cqFlags : U64
  cqOverflow : U64
  cqMask : U32
  cqes : U64
  isSqPoll : Bool
  registeredRingFd : Option I32

def Params.singleMmap (params : Params) : Bool := params.features &&& featSingleMmap != 0

/-- `sq_size` and `cq_size`, before they are made one where there is a single mapping. -/
def Params.sqSize (params : Params) : Usize :=
  params.sqOff.array.setWidth 64 + params.sqEntries.setWidth 64 * sizeofU32

def Params.cqSize (params : Params) : Usize :=
  params.cqOff.cqes.setWidth 64 + params.cqEntries.setWidth 64 * sizeofCqe

/-- `std::max`. -/
def stdMax (a b : Usize) : Usize := if a < b then b else a

/-- The mapping of the submission ring, and that of the completion ring if it has its own. -/
def mapRings (build : Build) (kernel : Kernel) (ring_fd : I32) (params : Params) :
    Recorded CreateError (UniquePtr × Option UniquePtr) := do
  let single_mmap := params.singleMmap
  let sq_size := if single_mmap then stdMax params.sqSize params.cqSize else params.sqSize
  let cq_size := if single_mmap then sq_size else params.cqSize
  let sq_ptr ← (ioUringMmap build kernel sizeofU8 ring_fd sq_size offSqRing).mapStop
    CreateError.ofMmap
  if single_mmap then pure (sq_ptr, none)
  else do
    let cq_ptr ← (ioUringMmap build kernel sizeofU8 ring_fd cq_size offCqRing).mapStop
      CreateError.ofMmap
    pure (sq_ptr, some cq_ptr)

/-- What comes after the rings are mapped: the pointers into them, and the mapping of the submission
entries in between. -/
def assemble (build : Build) (kernel : Kernel) (flags : U32) (ring_fd : I32) (params : Params)
    (sq_ptr : UniquePtr) (cq_ptr : Option UniquePtr) : Recorded CreateError Mapped := do
  let sq := fun (off : U32) => sq_ptr.ptr + off.setWidth 64
  let sq_head ← ptrCast build 4 (sq params.sqOff.head)
  let sq_tail ← ptrCast build 4 (sq params.sqOff.tail)
  let sq_flags ← ptrCast build 4 (sq params.sqOff.flags)
  let sq_array ← ptrCast build 4 (sq params.sqOff.array)
  let sq_dropped ← ptrCast build 4 (sq params.sqOff.dropped)
  let sq_mask ← ptrCast build 4 (sq params.sqOff.ringMask)
  let sqes ← (ioUringMmap build kernel sizeofSqe ring_fd
    (params.sqEntries.setWidth 64 * sizeofSqe) offSqes).mapStop CreateError.ofMmap
  let cq := fun (off : U32) => (cq_ptr.getD sq_ptr).ptr + off.setWidth 64
  let cq_head ← ptrCast build 4 (cq params.cqOff.head)
  let cq_tail ← ptrCast build 4 (cq params.cqOff.tail)
  let cq_flags ← ptrCast build 4 (cq params.cqOff.flags)
  let cq_overflow ← ptrCast build 4 (cq params.cqOff.overflow)
  let cq_mask ← ptrCast build 4 (cq params.cqOff.ringMask)
  let cqes ← ptrCast build 8 (cq params.cqOff.cqes)
  if kernel.allocates then
    pure {
      ringFd := ring_fd, sqPtr := sq_ptr, cqPtr := cq_ptr, sqHead := sq_head, sqTail := sq_tail,
      sqFlags := sq_flags, sqArray := sq_array, sqDropped := sq_dropped,
      sqMask := kernel.load sq_mask, sqes, cqHead := cq_head, cqTail := cq_tail,
      cqFlags := cq_flags, cqOverflow := cq_overflow, cqMask := kernel.load cq_mask, cqes,
      isSqPoll := flags &&& setupSqpoll != 0,
      registeredRingFd := kernel.registerRingFd ring_fd }
  else Logged.stop (.returned .outOfMemory)

/-- `EventedIo::create`. -/
def create (build : Build) (kernel : Kernel) (capacity flags : U32) :
    Recorded CreateError Mapped :=
  if capacity = 0 ∨ capacity &&& (capacity - 1) ≠ 0 then .stop (.returned .invalidCapacity)
  else do
    let (ring_fd, params) ← (ioUringSetup build kernel capacity flags).mapStop CreateError.ofSetup
    let (sq_ptr, cq_ptr) ← mapRings build kernel ring_fd params
    assemble build kernel flags ring_fd params sq_ptr cq_ptr

/-! ## Which lengths are asked for -/

/-- An offset and so many small things fit into 64 bits. -/
theorem toNat_off_add_mul (off n : U32) {k : Usize} (hk : k.toNat < 2 ^ 16) :
    (off.setWidth 64 + n.setWidth 64 * k).toNat = off.toNat + n.toNat * k.toNat := by
  have hoff := off.isLt
  have hmul : n.toNat * k.toNat < 2 ^ 32 * 2 ^ 16 := Nat.mul_lt_mul'' n.isLt hk
  have hwide : ∀ x : U32, (x.setWidth 64).toNat = x.toNat := by
    intro x
    rw [BitVec.toNat_setWidth]
    exact Nat.mod_eq_of_lt (x.isLt.trans (by decide))
  rw [BitVec.toNat_add, BitVec.toNat_mul, hwide, hwide,
    Nat.mod_eq_of_lt (a := n.toNat * k.toNat) (by omega)]
  exact Nat.mod_eq_of_lt (by omega)

namespace Params

/-- How long each region is, in bytes. -/
def sqRingBytes (params : Params) : Nat := params.sqOff.array.toNat + params.sqEntries.toNat * 4
def cqRingBytes (params : Params) : Nat := params.cqOff.cqes.toNat + params.cqEntries.toNat * 16
def sqesBytes (params : Params) : Nat := params.sqEntries.toNat * 64

/-- How long the region at an offset is. -/
def bytesAt (params : Params) (offset : I64) : Nat :=
  if offset = offSqRing then
    if params.singleMmap then max params.sqRingBytes params.cqRingBytes else params.sqRingBytes
  else if offset = offCqRing then params.cqRingBytes
  else params.sqesBytes

theorem toNat_sqSize (params : Params) : params.sqSize.toNat = params.sqRingBytes :=
  toNat_off_add_mul _ _ (by decide)

theorem toNat_cqSize (params : Params) : params.cqSize.toNat = params.cqRingBytes :=
  toNat_off_add_mul _ _ (by decide)

end Params

theorem toNat_stdMax (a b : Usize) : (stdMax a b).toNat = max a.toNat b.toNat := by
  unfold stdMax
  split
  · next h => rw [Nat.max_eq_right (Nat.le_of_lt h)]
  · next h => rw [Nat.max_eq_left (Nat.le_of_not_lt h)]

namespace Length

/-- It is as long as its region. -/
def Exact (params : Params) : Length → Prop
  | mmap bytes offset => bytes.toNat = params.bytesAt offset
  | deleter size offset => size.toNat = params.bytesAt offset

end Length

section

variable {build : Build} {kernel : Kernel} {l : Length} {fd : I32} {offset : I64} {sizeofR len : Usize}
  {params : Params}

/-- The kernel maps this many bytes. -/
def Kernel.Maps (kernel : Kernel) (bytes : Usize) (fd : I32) (offset : I64) : Prop :=
  eErrnoPtr (kernel.mmap bytes fd offset).1 (kernel.mmap bytes fd offset).2 = Errno.success

/-- **What `mmap<R>` asks for**: bytes, of which there are as many as the elements have. -/
theorem mem_record_mmap : l ∈ (mmap build kernel sizeofR len fd offset).record ↔
    l = .mmap (len * sizeofR) offset ∨
      kernel.Maps (len * sizeofR) fd offset ∧ l = .deleter (len * sizeofR) offset := by
  unfold mmap Kernel.Maps
  dsimp only
  split
  · next h => simp [h]
  · next h => simp [h]

theorem result_mmap {p : UniquePtr} : (mmap build kernel sizeofR len fd offset).result = .ok p ↔
    kernel.Maps (len * sizeofR) fd offset ∧
      p = ⟨(kernel.mmap (len * sizeofR) fd offset).1, len * sizeofR⟩ := by
  unfold mmap Kernel.Maps
  dsimp only
  split
  · next h => simp [h, @eq_comm _ p]
  · next h => simp [h]

theorem mem_record_ioUringMmap {size : Usize} {off : U64} :
    l ∈ (ioUringMmap build kernel sizeofR fd size off).record ↔ l = .mmap (size * sizeofR) off ∨
      kernel.Maps (size * sizeofR) fd off ∧ l = .deleter (size * sizeofR) off := by
  rw [ioUringMmap, Logged.record_mapStop, mem_record_mmap]

theorem result_ioUringMmap {size : Usize} {off : U64} {p : UniquePtr} :
    (ioUringMmap build kernel sizeofR fd size off).result = .ok p ↔
      kernel.Maps (size * sizeofR) fd off ∧
        p = ⟨(kernel.mmap (size * sizeofR) fd off).1, size * sizeofR⟩ := by
  rw [ioUringMmap, Logged.result_mapStop, result_mmap]

theorem exact_of_mem_ioUringMmap {size : Usize} {off : U64}
    (hsize : (size * sizeofR).toNat = params.bytesAt off)
    (h : l ∈ (ioUringMmap build kernel sizeofR fd size off).record) : l.Exact params := by
  rcases mem_record_ioUringMmap.mp h with rfl | ⟨-, rfl⟩
  · exact hsize
  · exact hsize

/-- The length of the mapping at the offset of the submission ring. -/
def Params.ringSize (params : Params) : Usize :=
  if params.singleMmap then stdMax params.sqSize params.cqSize else params.sqSize

theorem Params.toNat_ringSize (params : Params) :
    params.ringSize.toNat = params.bytesAt offSqRing := by
  unfold ringSize bytesAt
  rw [if_pos rfl]
  split
  · rw [toNat_stdMax, toNat_sqSize, toNat_cqSize]
  · exact params.toNat_sqSize

theorem mul_sizeofU8 (n : Usize) : n * sizeofU8 = n := BitVec.mul_one n

/-- **The rings** are mapped with their lengths. -/
theorem exact_of_mem_mapRings (h : l ∈ (mapRings build kernel fd params).record) : l.Exact params := by
  simp only [mapRings, Logged.mem_record_bind, Logged.record_mapStop] at h
  rcases h with h | ⟨sq_ptr, -, h⟩
  · exact exact_of_mem_ioUringMmap (by rw [mul_sizeofU8]; exact params.toNat_ringSize) h
  · by_cases hsingle : params.singleMmap
    · simp [hsingle] at h
    · simp only [hsingle, Bool.false_eq_true, if_false, Logged.mem_record_bind,
        Logged.record_mapStop, Logged.not_mem_record_pure, and_false, exists_false, or_false] at h
      refine exact_of_mem_ioUringMmap ?_ h
      rw [mul_sizeofU8, params.toNat_cqSize, Params.bytesAt, if_neg (by decide), if_pos rfl]

theorem exists_mapRings {sq_ptr : UniquePtr} :
    (∃ cq_ptr, (mapRings build kernel fd params).result = .ok (sq_ptr, cq_ptr)) ↔
      (kernel.Maps params.ringSize fd offSqRing ∧
        sq_ptr = ⟨(kernel.mmap params.ringSize fd offSqRing).1, params.ringSize⟩) ∧
      (params.singleMmap ∨ kernel.Maps params.cqSize fd offCqRing) := by
  have hsq : ∀ p, ((ioUringMmap build kernel sizeofU8 fd params.ringSize offSqRing).mapStop
      CreateError.ofMmap).result = .ok p ↔ kernel.Maps params.ringSize fd offSqRing ∧
        p = ⟨(kernel.mmap params.ringSize fd offSqRing).1, params.ringSize⟩ := by
    intro p
    rw [Logged.result_mapStop, result_ioUringMmap, mul_sizeofU8]
  have hcq : (∃ p, ((ioUringMmap build kernel sizeofU8 fd params.cqSize offCqRing).mapStop
      CreateError.ofMmap).result = .ok p) ↔ kernel.Maps params.cqSize fd offCqRing := by
    simp only [Logged.result_mapStop, result_ioUringMmap, mul_sizeofU8]
    constructor
    · rintro ⟨_, hmap, -⟩
      exact hmap
    · intro hmap
      exact ⟨_, hmap, rfl⟩
  have hring : params.ringSize
      = if params.singleMmap then stdMax params.sqSize params.cqSize else params.sqSize := rfl
  simp only [mapRings, ← hring, Logged.result_bind_ok, hsq]
  by_cases hsingle : params.singleMmap
  · simp [hsingle, @eq_comm _ _ sq_ptr]
  · simp only [hsingle, Bool.false_eq_true, if_false, false_or, Logged.result_bind_ok,
      Logged.result_pure, ← hcq]
    constructor
    · rintro ⟨_, p, ⟨hmap, rfl⟩, q, hq, he⟩
      obtain ⟨rfl, -⟩ := Prod.mk.inj he
      exact ⟨⟨hmap, rfl⟩, q, hq⟩
    · rintro ⟨⟨hmap, rfl⟩, q, hq⟩
      exact ⟨some q, _, ⟨hmap, rfl⟩, q, hq, rfl⟩

end

/-! ## `create` -/

section

variable {build : Build} {kernel : Kernel} {capacity flags : U32} {l : Length}

/-- What `io_uring_setup` leaves. -/
def Kernel.params (kernel : Kernel) (capacity flags : U32) : Params :=
  (kernel.ioUringSetup capacity flags).2.2

def Kernel.ringFd (kernel : Kernel) (capacity flags : U32) : I32 :=
  (kernel.ioUringSetup capacity flags).1.setWidth 32

def SqOffsets.all (off : SqOffsets) : List U32 :=
  [off.head, off.tail, off.flags, off.array, off.dropped, off.ringMask]

/-- Nothing stops `create` before it comes to the submission entries. -/
structure ReachesSqes (build : Build) (kernel : Kernel) (capacity flags : U32) : Prop where
  powerOfTwo : ¬ (capacity = 0 ∨ capacity &&& (capacity - 1) ≠ 0)
  setsUp : eErrno (kernel.ioUringSetup capacity flags).1 (kernel.ioUringSetup capacity flags).2.1
    = Errno.success
  sqRing : kernel.Maps (kernel.params capacity flags).ringSize (kernel.ringFd capacity flags)
    offSqRing
  cqRing : (kernel.params capacity flags).singleMmap ∨
    kernel.Maps (kernel.params capacity flags).cqSize (kernel.ringFd capacity flags) offCqRing
  aligned : build = .debug → ∀ off ∈ (kernel.params capacity flags).sqOff.all,
    ((kernel.mmap (kernel.params capacity flags).ringSize (kernel.ringFd capacity flags)
      offSqRing).1 + off.setWidth 64).toNat % 4 = 0

@[simp] theorem not_mem_record_ptrCast {ε : Type} {n : Nat} {p : U64} :
    l ∉ (ptrCast build n p : Recorded ε U64).record := by
  unfold ptrCast
  split <;> simp

@[simp] theorem result_ptrCast {ε : Type} {n : Nat} {p q : U64} :
    (ptrCast build n p : Recorded ε U64).result = .ok q ↔
      (build = .debug → p.toNat % n = 0) ∧ p = q := by
  unfold ptrCast
  split
  · next h => simp [h]
  · next h =>
      have haligned : build = .debug → p.toNat % n = 0 := by
        intro hdebug
        by_contra hne
        exact h ⟨hdebug, hne⟩
      rw [Logged.result_pure, and_iff_right haligned]

theorem not_mem_record_ioUringSetup : l ∉ (ioUringSetup build kernel capacity flags).record := by
  unfold ioUringSetup
  dsimp only
  split <;> simp

theorem result_ioUringSetup {r : I32 × Params} :
    (ioUringSetup build kernel capacity flags).result = .ok r ↔
      eErrno (kernel.ioUringSetup capacity flags).1 (kernel.ioUringSetup capacity flags).2.1
        = Errno.success ∧ r = (kernel.ringFd capacity flags, kernel.params capacity flags) := by
  unfold ioUringSetup Kernel.ringFd Kernel.params
  dsimp only
  split
  · next h => simp [h, @eq_comm _ _ r]
  · next h => simp [h]

/-- After the rings, nothing is asked for but the submission entries. -/
theorem mem_record_assemble {fd : I32} {params : Params} {sq_ptr : UniquePtr}
    {cq_ptr : Option UniquePtr} :
    l ∈ (assemble build kernel flags fd params sq_ptr cq_ptr).record ↔
      (build = .debug → ∀ off ∈ params.sqOff.all, (sq_ptr.ptr + off.setWidth 64).toNat % 4 = 0) ∧
        l ∈ (ioUringMmap build kernel sizeofSqe fd (params.sqEntries.setWidth 64 * sizeofSqe)
          offSqes).record := by
  have hlast : ∀ (c : Bool) (m : Mapped) (e : Stop CreateError),
      l ∉ (if c then pure m else Logged.stop e : Recorded CreateError Mapped).record := by
    intro c m e
    cases c <;> simp
  unfold assemble SqOffsets.all
  simp [hlast, and_assoc, forall_and]

/-- **What `create` asks for**: the rings, and the submission entries if nothing stops it before. -/
theorem mem_record_create : l ∈ (create build kernel capacity flags).record ↔
    (¬ (capacity = 0 ∨ capacity &&& (capacity - 1) ≠ 0) ∧
      eErrno (kernel.ioUringSetup capacity flags).1 (kernel.ioUringSetup capacity flags).2.1
        = Errno.success ∧
      l ∈ (mapRings build kernel (kernel.ringFd capacity flags)
        (kernel.params capacity flags)).record) ∨
    ReachesSqes build kernel capacity flags ∧
      l ∈ (ioUringMmap build kernel sizeofSqe (kernel.ringFd capacity flags)
        ((kernel.params capacity flags).sqEntries.setWidth 64 * sizeofSqe) offSqes).record := by
  unfold create
  split
  · next hcap =>
      simp only [Logged.not_mem_record_stop, hcap, not_true_eq_false, false_and, false_or,
        false_iff]
      intro h
      exact h.1.powerOfTwo hcap
  · next hcap =>
      simp only [Logged.mem_record_bind, Logged.record_mapStop, Logged.result_mapStop,
        not_mem_record_ioUringSetup, result_ioUringSetup, false_or, Prod.exists, Prod.mk.injEq,
        mem_record_assemble]
      constructor
      · rintro ⟨_, _, ⟨hset, rfl, rfl⟩, h | ⟨sq_ptr, cq_ptr, hrings, haligned, h⟩⟩
        · exact .inl ⟨hcap, hset, h⟩
        · obtain ⟨⟨hsq, rfl⟩, hcq⟩ := exists_mapRings.mp ⟨cq_ptr, hrings⟩
          exact .inr ⟨⟨hcap, hset, hsq, hcq, haligned⟩, h⟩
      · rintro (⟨-, hset, h⟩ | ⟨hreach, h⟩)
        · exact ⟨_, _, ⟨hset, rfl, rfl⟩, .inl h⟩
        · obtain ⟨cq_ptr, hrings⟩ :=
            exists_mapRings.mpr ⟨⟨hreach.sqRing, rfl⟩, hreach.cqRing⟩
          exact ⟨_, _, ⟨hreach.setsUp, rfl, rfl⟩, .inr ⟨_, cq_ptr, hrings, hreach.aligned, h⟩⟩

/-- The length for the submission entries is multiplied by their size twice. -/
theorem toNat_sqesLength (n : U32) :
    (n.setWidth 64 * sizeofSqe * sizeofSqe).toNat = n.toNat * 64 * 64 := by
  have hsize : sizeofSqe * sizeofSqe = 4096 := rfl
  have h := toNat_off_add_mul 0 n (k := 4096) (by decide)
  rw [show (0 : U32).setWidth 64 = 0#64 from rfl, BitVec.zero_add] at h
  rw [BitVec.mul_assoc, hsize, Nat.mul_assoc]
  exact h.trans (Nat.zero_add _)

/-- **Every length is that of its region** unless it comes to mapping submission entries, of which
there are some. -/
theorem exact_create_iff (build : Build) (kernel : Kernel) (capacity flags : U32) :
    (∀ l ∈ (create build kernel capacity flags).record, l.Exact (kernel.params capacity flags)) ↔
      (ReachesSqes build kernel capacity flags → (kernel.params capacity flags).sqEntries = 0) := by
  have hsqes : (kernel.params capacity flags).bytesAt offSqes
      = (kernel.params capacity flags).sqEntries.toNat * 64 := by
    rw [Params.bytesAt, if_neg (by decide), if_neg (by decide)]
    rfl
  constructor
  · intro h hreach
    have hexact := h _ (mem_record_create.mpr
      (.inr ⟨hreach, mem_record_ioUringMmap.mpr (.inl rfl)⟩))
    change BitVec.toNat _ = _ at hexact
    rw [toNat_sqesLength, hsqes] at hexact
    apply BitVec.eq_of_toNat_eq
    show _ = 0
    omega
  · intro h l hl
    rcases mem_record_create.mp hl with ⟨-, -, hrings⟩ | ⟨hreach, hl⟩
    · exact exact_of_mem_mapRings hrings
    · refine exact_of_mem_ioUringMmap ?_ hl
      rw [toNat_sqesLength, hsqes, h hreach]
      rfl

end

/-! ### One entry -/

/-- A ring with one entry and a single mapping, which the kernel puts at the address 4096. -/
def oneEntry : Kernel where
  ioUringSetup _ _ :=
    (3, 0, ⟨1, 2, featSingleMmap, ⟨0, 4, 8, 12, 16, 64⟩, ⟨20, 24, 28, 32, 36, 128⟩⟩)
  mmap _ _ _ := (4096, 0)
  load _ := 0
  allocates := true
  registerRingFd _ := none

/-- For its one entry of 64 bytes, 4096 are asked for. -/
theorem not_exact_oneEntry : (create .release oneEntry 1 0).result.isOk ∧
    .mmap 4096 offSqes ∈ (create .release oneEntry 1 0).record ∧
    ¬ (Length.mmap 4096 offSqes).Exact (oneEntry.params 1 0) := by
  refine ⟨rfl, ?_, ?_⟩
  · decide
  · show ¬ (4096 = 64)
    decide

end Shclog.EventedIo
