import Shclog.Syscall
import Shclog.Lib.Ring

/-! # `EventedIo`: the two rings shared with the kernel

The class of `iouring.hpp`: what it keeps in shared memory, the entries its pushes write, the
system calls it makes, and how its pops read a result. `io_uring.h` is not part of the repository;
of its structures, only what the class assigns or looks at is here. The pushes and the pops are those
of a release build; a debug build asserts that the arguments fit, and aborts where a pop would return
`unexpected`. -/

namespace Shclog

/-! ## Submission entries -/

/-- The `IORING_OP_*` of the pushes. A zeroed entry is a `nop`. -/
inductive Opcode where
  | nop
  | writev
  | readFixed
  | writeFixed
  | read
  | write
  | writevFixed
  deriving DecidableEq

/-- An `io_uring_sqe`. The pushes assign the first eight fields and zero the others. -/
structure Sqe where
  opcode : Opcode := .nop
  fd : I32 := 0
  addr : U64 := 0
  len : U32 := 0
  off : U64 := 0
  flags : U8 := 0
  bufIndex : U16 := 0
  rwFlags : U32 := 0
  ioprio : U16 := 0
  userData : U64 := 0
  personality : U16 := 0
  spliceFdIn : I32 := 0
  addr3 : U64 := 0
  deriving DecidableEq

/-- One assignment to an entry: `*sqe = {}`, or `sqe->field = v`. -/
inductive Store where
  | clear
  | opcode (v : Opcode)
  | fd (v : I32)
  | addr (v : U64)
  | len (v : U32)
  | off (v : U64)
  | flags (v : U8)
  | bufIndex (v : U16)
  | rwFlags (v : U32)

def Store.apply : Store → Sqe → Sqe
  | .clear, _ => {}
  | .opcode v, sqe => { sqe with opcode := v }
  | .fd v, sqe => { sqe with fd := v }
  | .addr v, sqe => { sqe with addr := v }
  | .len v, sqe => { sqe with len := v }
  | .off v, sqe => { sqe with off := v }
  | .flags v, sqe => { sqe with flags := v }
  | .bufIndex v, sqe => { sqe with bufIndex := v }
  | .rwFlags v, sqe => { sqe with rwFlags := v }

/-- The entry after a sequence of assignments. -/
def Sqe.fill (sqe : Sqe) (stores : List Store) : Sqe :=
  stores.foldl (fun sqe st => st.apply sqe) sqe

/-- A `std::span`: where it starts and how many elements it has. -/
structure Span where
  data : U64
  size : Usize

/-- The assignments the three pushes have in common. `int_cast` asserts that its argument fits and
then truncates it; the truncation is what is left when assertions are off. -/
def fillSqe (opcode fixedOpcode : Opcode) (fd : I32) (buf : Span) (offset : Usize) (flags : U8)
    (fixedBuffers : Bool) : List Store :=
  [.clear, .opcode (if fixedBuffers then fixedOpcode else opcode), .fd fd, .addr buf.data,
    .len (buf.size.setWidth 32), .off offset, .flags flags]

/-- What `push_write` assigns, in its order. -/
def pushWrite (fd : I32) (buf : Span) (offset : Usize) (flags : U8) (rwFlags : U32)
    (fixedBuffers : Bool) (bufIdx : U32) : List Store :=
  fillSqe .write .writeFixed fd buf offset flags fixedBuffers ++
    (if fixedBuffers then [.bufIndex (bufIdx.setWidth 16)] else []) ++ [.rwFlags rwFlags]

/-- What `push_writev` assigns; unlike `push_write` it always sets the buffer's index. -/
def pushWritev (fd : I32) (iovecs : Span) (offset : Usize) (flags : U8) (fixedBuffers : Bool)
    (bufIdx : U32) : List Store :=
  fillSqe .writev .writevFixed fd iovecs offset flags fixedBuffers ++
    [.bufIndex (bufIdx.setWidth 16)]

/-- What `push_read` assigns. -/
def pushRead (fd : I32) (buff : Span) (offset : Usize) (flags : U8) (fixedBuffers : Bool)
    (bufIdx : U32) : List Store :=
  fillSqe .read .readFixed fd buff offset flags fixedBuffers ++ [.bufIndex (bufIdx.setWidth 16)]

/-- A call of one of the pushes with its arguments. -/
inductive Request where
  | write (fd : I32) (buf : Span) (offset : Usize) (flags : U8) (rwFlags : U32)
      (fixedBuffers : Bool) (bufIdx : U32)
  | writev (fd : I32) (iovecs : Span) (offset : Usize) (flags : U8) (fixedBuffers : Bool)
      (bufIdx : U32)
  | read (fd : I32) (buff : Span) (offset : Usize) (flags : U8) (fixedBuffers : Bool)
      (bufIdx : U32)

def Request.stores : Request → List Store
  | .write fd buf offset flags rwFlags fixedBuffers bufIdx =>
    pushWrite fd buf offset flags rwFlags fixedBuffers bufIdx
  | .writev fd iovecs offset flags fixedBuffers bufIdx =>
    pushWritev fd iovecs offset flags fixedBuffers bufIdx
  | .read fd buff offset flags fixedBuffers bufIdx =>
    pushRead fd buff offset flags fixedBuffers bufIdx

/-- The entry a request stands for: the caller's arguments, field by field. -/
def Request.sqe : Request → Sqe
  | .write fd buf offset flags rwFlags fixedBuffers bufIdx =>
    { opcode := if fixedBuffers then .writeFixed else .write
      fd, addr := buf.data, len := buf.size.setWidth 32, off := offset, flags
      bufIndex := if fixedBuffers then bufIdx.setWidth 16 else 0
      rwFlags }
  | .writev fd iovecs offset flags fixedBuffers bufIdx =>
    { opcode := if fixedBuffers then .writevFixed else .writev
      fd, addr := iovecs.data, len := iovecs.size.setWidth 32, off := offset, flags
      bufIndex := bufIdx.setWidth 16 }
  | .read fd buff offset flags fixedBuffers bufIdx =>
    { opcode := if fixedBuffers then .readFixed else .read
      fd, addr := buff.data, len := buff.size.setWidth 32, off := offset, flags
      bufIndex := bufIdx.setWidth 16 }

/-- Whatever a slot held before, the assignments leave the request in it and nothing else. -/
theorem Request.fill_stores (r : Request) (sqe : Sqe) : sqe.fill r.stores = r.sqe := by
  cases r with
  | write fd buf offset flags rwFlags fixedBuffers bufIdx => cases fixedBuffers <;> rfl
  | writev => rfl
  | read => rfl

/-! ## The class -/

/-- The fields of the class with what the pointers among them point to. `cqes` is the `res` of each
completion entry. -/
structure EventedIo where
  ringFd : I32
  sqHead : U32
  sqTail : U32
  sqFlags : U32
  sqArray : U32 → U32
  sqMask : U32
  sqes : U32 → Sqe
  cqHead : U32
  cqTail : U32
  cqMask : U32
  cqes : U32 → I32
  isSqPoll : Bool
  registeredRingFd : Option I32

/-- The arguments of an `io_uring_enter`. -/
structure Enter where
  ringFd : I32
  toSubmit : U32
  minComplete : U32
  flags : U32
  deriving DecidableEq

namespace EventedIo

def enterGetevents : U32 := 1
def enterSqWakeup : U32 := 2
def enterRegisteredRing : U32 := 16
def sqNeedWakeup : U32 := 1

/-- `extra_enter_flags`. -/
def extraEnterFlags (q : EventedIo) : U32 :=
  if q.registeredRingFd.isSome then enterRegisteredRing else 0

/-- `get_ring_fd`. -/
def getRingFd (q : EventedIo) : I32 := q.registeredRingFd.getD q.ringFd

/-- The `io_uring_enter` of `pop_one`. -/
def waitEnter (q : EventedIo) : Enter :=
  ⟨q.getRingFd, 0, 1, enterGetevents ||| q.extraEnterFlags⟩

/-- The `io_uring_enter` of `submit` that wakes the kernel's thread. -/
def wakeEnter (q : EventedIo) : Enter :=
  ⟨q.getRingFd, 0, 0, enterSqWakeup ||| q.extraEnterFlags⟩

/-- The `io_uring_enter` of `submit` that submits: one entry, always. -/
def submitEnter (q : EventedIo) : Enter :=
  ⟨q.getRingFd, 1, 0, 0 ||| q.extraEnterFlags⟩

/-- `*sq_flags & IORING_SQ_NEED_WAKEUP`. -/
def needWakeup (q : EventedIo) : Bool := q.sqFlags &&& sqNeedWakeup != 0

/-- The test of `next_sq_slot`. -/
def noSqSlot (tail head sqMask : U32) : Bool := tail - head ≥ sqMask + 1

/-! ### Writes to shared memory -/

/-- `sqe` at the index `index` is assigned to. -/
def storeSqe (q : EventedIo) (index : U32) (st : Store) : EventedIo :=
  { q with sqes := Function.update q.sqes index (st.apply (q.sqes index)) }

/-- `sq_array[index] = index`. -/
def storeArray (q : EventedIo) (index : U32) : EventedIo :=
  { q with sqArray := Function.update q.sqArray index index }

/-- `sq_tail->store(t)`. -/
def storeSqTail (q : EventedIo) (t : U32) : EventedIo := { q with sqTail := t }

/-- `cq_head->store(h)`. -/
def storeCqHead (q : EventedIo) (h : U32) : EventedIo := { q with cqHead := h }

/-- The kernel gives `n` entries of the submission ring back. -/
def releaseSq (q : EventedIo) (n : Nat) : EventedIo :=
  { q with sqHead := q.sqHead + BitVec.ofNat 32 n }

/-- The kernel writes the `res` of a completion. -/
def storeCqe (q : EventedIo) (index : U32) (res : I32) : EventedIo :=
  { q with cqes := Function.update q.cqes index res }

/-- The kernel makes `n` completions visible. -/
def commitCq (q : EventedIo) (n : Nat) : EventedIo :=
  { q with cqTail := q.cqTail + BitVec.ofNat 32 n }

end EventedIo

/-! ## Results -/

/-- `PushResult`. -/
inductive PushResult where
  | success
  | wakeFailed
  | queueIsFull
  deriving DecidableEq

/-- `PopError`: what goes wrong before a completion is taken. -/
inductive PopError where
  | completionCheckError
  | ringEmpty
  deriving DecidableEq

inductive WritevError where
  | badIovecsSize
  | accessDenied
  | temporarilyUnavailable
  | noSpaceLeft
  | badFd
  | writeFailed
  | terminated
  | unexpected
  deriving DecidableEq

inductive WriteError where
  | badBufferSize
  | accessDenied
  | temporarilyUnavailable
  | noSpaceLeft
  | badFd
  | writeFailed
  | terminated
  | unexpected
  deriving DecidableEq

inductive ReadError where
  | temporarilyUnavailable
  | badFd
  | fdIsDir
  | badBuffer
  | unexpected
  deriving DecidableEq

/-- The `switch` of `pop_writev` and of `pop_write`, which differ in the outcomes' names. -/
def writeSwitch {E : Type} (badSize temporarilyUnavailable badFd terminated noSpaceLeft writeFailed
    accessDenied unexpected : E) (e : Errno) : E :=
  if e ∈ [Errno.inval, Errno.fbig, Errno.range] then badSize
  else if e ∈ [Errno.again, Errno.dquot] then temporarilyUnavailable
  else if e ∈ [Errno.badf, Errno.pipe, Errno.destaddrreq, Errno.netdown, Errno.netunreach] then
    badFd
  else if e = Errno.intr then terminated
  else if e = Errno.nospc then noSpaceLeft
  else if e = Errno.nxio then writeFailed
  else if e = Errno.acces then accessDenied
  else unexpected

def WritevError.ofErrno : Errno → WritevError :=
  writeSwitch .badIovecsSize .temporarilyUnavailable .badFd .terminated .noSpaceLeft .writeFailed
    .accessDenied .unexpected

def WriteError.ofErrno : Errno → WriteError :=
  writeSwitch .badBufferSize .temporarilyUnavailable .badFd .terminated .noSpaceLeft .writeFailed
    .accessDenied .unexpected

def ReadError.ofErrno (e : Errno) : ReadError :=
  if e = Errno.again then .temporarilyUnavailable
  else if e = Errno.badf then .badFd
  else if e = Errno.inval then .badBuffer
  else if e = Errno.isdir then .fdIsDir
  else .unexpected

/-- A call of one of the pops. -/
inductive Pop where
  | write
  | writev
  | read
  deriving DecidableEq

/-- The error of an operation, by the pop that reports it. -/
inductive OpError where
  | write (e : WriteError)
  | writev (e : WritevError)
  | read (e : ReadError)
  deriving DecidableEq

/-- What a pop returns: bytes, or one of the errors of its `std::variant`. -/
abbrev PopResult := Except (PopError ⊕ OpError) U32

/-- The error a pop makes of an error number. -/
def Pop.errorOf : Pop → Errno → OpError
  | .write, e => .write (.ofErrno e)
  | .writev, e => .writev (.ofErrno e)
  | .read, e => .read (.ofErrno e)

/-- What a pop returns for the `res` of the completion it took. -/
def Pop.resultOf (k : Pop) (rc : I32) : PopResult :=
  if rc.toInt ≥ 0 then .ok rc
  else .error (.inr (k.errorOf (ioUringErrno (rc.signExtend 64))))

/-- A result of the kernel's is never taken for a ring error. -/
theorem Pop.resultOf_ne_popError (k : Pop) (rc : I32) (e : PopError) :
    k.resultOf rc ≠ .error (.inl e) := by
  unfold Pop.resultOf
  split <;> simp

theorem Pop.resultOf_ok_iff {k : Pop} {rc : I32} {n : U32} :
    k.resultOf rc = .ok n ↔ 0 ≤ rc.toInt ∧ n = rc := by
  unfold Pop.resultOf
  split
  · next h => simp [h, eq_comm]
  · next h => simp [h]

theorem Pop.resultOf_opError_iff {k : Pop} {rc : I32} {e : OpError} :
    k.resultOf rc = .error (.inr e) ↔
      rc.toInt < 0 ∧ e = k.errorOf (ioUringErrno (rc.signExtend 64)) := by
  unfold Pop.resultOf
  split
  · next h => simp; omega
  · next h =>
      have hlt : rc.toInt < 0 := by omega
      simp [hlt, eq_comm]

end Shclog
