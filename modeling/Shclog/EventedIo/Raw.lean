import Shclog.EventedIo.Create
import Shclog.EventedIo.Machine
import Shclog.Lib.Memory

/-! # The ring in mapped memory

`EventedIo` once more, with the pointers that `create` makes instead of what they point to. The
memory is one of bytes; where nothing is mapped, nothing is there, and whoever goes there goes no
further. The layout of an entry is that of `io_uring.h`, which is not part of the repository. The build
is a release build, as in `EventedIo.Basic`. -/

namespace Shclog

open Lib

/-! ## Entries as bytes -/

/-- The number of an `IORING_OP_*`. -/
def Opcode.code : Opcode → Nat
  | nop => 0
  | writev => 2
  | readFixed => 4
  | writeFixed => 5
  | read => 22
  | write => 23
  | writevFixed => 61

def Opcode.ofCode (n : Nat) : Opcode :=
  ([.writev, .readFixed, .writeFixed, .read, .write, .writevFixed].find? (·.code = n)).getD .nop

theorem Opcode.ofCode_code (o : Opcode) : Opcode.ofCode o.code = o := by
  cases o <;> rfl

/-- How many bytes each field of an `io_uring_sqe` has, and what it is; the last is padding. -/
def Sqe.fields (sqe : Sqe) : List (Nat × Nat) :=
  [(1, sqe.opcode.code), (1, sqe.flags.toNat), (2, sqe.ioprio.toNat), (4, sqe.fd.toNat),
    (8, sqe.off.toNat), (8, sqe.addr.toNat), (4, sqe.len.toNat), (4, sqe.rwFlags.toNat),
    (8, sqe.userData.toNat), (2, sqe.bufIndex.toNat), (2, sqe.personality.toNat),
    (4, sqe.spliceFdIn.toNat), (8, sqe.addr3.toNat), (8, 0)]

def Sqe.bytes (sqe : Sqe) : List U8 := sqe.fields.flatMap fun f => leBytes f.1 f.2

/-- The field of `k` bytes at `off`. -/
def field (l : List U8) (off k : Nat) : Nat := ofLeBytes ((l.drop off).take k)

def Sqe.ofBytes (l : List U8) : Sqe where
  opcode := .ofCode (field l 0 1)
  flags := BitVec.ofNat _ (field l 1 1)
  ioprio := BitVec.ofNat _ (field l 2 2)
  fd := BitVec.ofNat _ (field l 4 4)
  off := BitVec.ofNat _ (field l 8 8)
  addr := BitVec.ofNat _ (field l 16 8)
  len := BitVec.ofNat _ (field l 24 4)
  rwFlags := BitVec.ofNat _ (field l 28 4)
  userData := BitVec.ofNat _ (field l 32 8)
  bufIndex := BitVec.ofNat _ (field l 40 2)
  personality := BitVec.ofNat _ (field l 42 2)
  spliceFdIn := BitVec.ofNat _ (field l 44 4)
  addr3 := BitVec.ofNat _ (field l 48 8)

/-- Where in an entry an assignment puts what. -/
def Store.place : Store → Nat × List U8
  | .clear => (0, List.replicate 64 0)
  | .opcode v => (0, leBytes 1 v.code)
  | .flags v => (1, leBytes 1 v.toNat)
  | .fd v => (4, leBytes 4 v.toNat)
  | .off v => (8, leBytes 8 v.toNat)
  | .addr v => (16, leBytes 8 v.toNat)
  | .len v => (24, leBytes 4 v.toNat)
  | .rwFlags v => (28, leBytes 4 v.toNat)
  | .bufIndex v => (40, leBytes 2 v.toNat)

@[simp] theorem Sqe.length_bytes (sqe : Sqe) : sqe.bytes.length = 64 := rfl

theorem ofNat_field {w : Nat} {l : List U8} {off k : Nat} {v : BitVec w} (hw : w = 8 * k)
    (h : (l.drop off).take k = leBytes k v.toNat) : BitVec.ofNat w (field l off k) = v := by
  subst hw
  have hlt : v.toNat < 256 ^ k := by
    rw [show 256 = 2 ^ 8 from rfl, ← Nat.pow_mul]
    exact v.isLt
  rw [field, h, ofLeBytes_leBytes hlt, BitVec.ofNat_toNat, BitVec.setWidth_eq]

/-- **An entry is read back.** -/
theorem Sqe.ofBytes_bytes (sqe : Sqe) : Sqe.ofBytes sqe.bytes = sqe := by
  have hopcode : field sqe.bytes 0 1 = sqe.opcode.code := by
    have hlt : sqe.opcode.code < 256 ^ 1 := by
      cases sqe.opcode <;> decide
    exact ofLeBytes_leBytes hlt
  have hofcode : Opcode.ofCode (field sqe.bytes 0 1) = sqe.opcode := by
    rw [hopcode, Opcode.ofCode_code]
  cases sqe
  rw [Sqe.ofBytes, Sqe.mk.injEq]
  exact ⟨hofcode, ofNat_field (k := 4) rfl rfl, ofNat_field (k := 8) rfl rfl,
    ofNat_field (k := 4) rfl rfl, ofNat_field (k := 8) rfl rfl, ofNat_field (k := 1) rfl rfl,
    ofNat_field (k := 2) rfl rfl, ofNat_field (k := 4) rfl rfl, ofNat_field (k := 2) rfl rfl,
    ofNat_field (k := 8) rfl rfl, ofNat_field (k := 2) rfl rfl, ofNat_field (k := 4) rfl rfl,
    ofNat_field (k := 8) rfl rfl⟩

/-- **An assignment changes its bytes and no others.** -/
theorem Store.splice_place (st : Store) (sqe : Sqe) :
    splice sqe.bytes st.place.1 st.place.2 = (st.apply sqe).bytes := by
  cases st with
  | clear =>
      have hzero : List.replicate 64 0 = ({} : Sqe).bytes := by decide +kernel
      exact (splice_all (m := List.replicate 64 0) rfl).trans hzero
  | _ => rfl

theorem Store.place_le (st : Store) : st.place.1 + st.place.2.length ≤ 64 := by
  cases st <;> simp [Store.place]

namespace EventedIo

/-! ## Through pointers -/

/-- What is done in the memory, unless something is not there. -/
abbrev OnMemory (α : Type) := StateT (Memory U8) Option α

def load32 (p : U64) : OnMemory U32 := fun f => do
  let l ← f.load p.toNat 4
  some (BitVec.ofNat 32 (ofLeBytes l), f)

def store32 (p : U64) (v : U32) : OnMemory Unit := fun f => do
  let g ← f.store p.toNat (leBytes 4 v.toNat)
  some ((), g)

/-- An assignment to the entry at `p`. -/
def assign (p : U64) (st : Store) : OnMemory Unit := fun f => do
  let g ← f.store (p.toNat + st.place.1) st.place.2
  some ((), g)

def loadSqe (p : U64) : OnMemory Sqe := fun f => do
  let l ← f.load p.toNat 64
  some (.ofBytes l, f)

namespace Mapped

/-- `&sq_array[index]`. -/
def arrayAt (m : Mapped) (index : U32) : U64 := m.sqArray + index.setWidth 64 * sizeofU32

/-- `&sqes.get()[index]`. -/
def sqeAt (m : Mapped) (index : U32) : U64 := m.sqes.ptr + index.setWidth 64 * sizeofSqe

/-- `&cqes[index].res`, which comes after 8 bytes of `user_data`. -/
def resAt (m : Mapped) (index : U32) : U64 := m.cqes + (index.setWidth 64 * sizeofCqe + 8)

/-- The object, and nothing of what it points to. -/
def object (m : Mapped) : EventedIo where
  ringFd := m.ringFd
  sqHead := 0
  sqTail := 0
  sqFlags := 0
  sqArray := fun _ => 0
  sqMask := m.sqMask
  sqes := fun _ => {}
  cqHead := 0
  cqTail := 0
  cqMask := m.cqMask
  cqes := fun _ => 0
  isSqPoll := m.isSqPoll
  registeredRingFd := m.registeredRingFd

/-- The next operation of a push. -/
def pushStep (m : Mapped) (ok : Bool) : Pushing → OnMemory (Event × Option Pushing)
  | .tail r => do
    let tail ← load32 m.sqTail
    pure (.tailLoaded, some (.head r tail))
  | .head r tail => do
    let head ← load32 m.sqHead
    if noSqSlot tail head m.sqMask then pure (.refused head, none)
    else pure (.granted head, some (.fill r tail r.stores))
  | .fill r slot (st :: todo) => do
    let index := slot &&& m.sqMask
    assign (m.sqeAt index) st
    pure (.sqeStored index, some (.fill r slot todo))
  | .fill r slot [] => do
    let index := slot &&& m.sqMask
    store32 (m.arrayAt index) index
    pure (.arrayStored index, some (.publish r slot))
  | .publish r slot => do
    store32 m.sqTail (slot + 1)
    let next := if m.isSqPoll then .flags else .enter m.object.submitEnter
    pure (.published r, some next)
  | .flags => do
    let flags ← load32 m.sqFlags
    let args := if flags &&& sqNeedWakeup != 0 then m.object.wakeEnter else m.object.submitEnter
    pure (.flagsLoaded, some (.enter args))
  | .enter args => pure (.pushEntered args ok, none)

/-- The next operation of a pop. -/
def popStep (m : Mapped) (ok : Bool) : Popping → OnMemory (Event × Option Popping)
  | .enter k => pure (.popEntered m.object.waitEnter ok, if ok then some (.head k) else none)
  | .head k => do
    let head ← load32 m.cqHead
    pure (.cqHeadLoaded, some (.tail k head))
  | .tail k head => do
    let tail ← load32 m.cqTail
    if head = tail then pure (.cqTailLoaded false, none)
    else pure (.cqTailLoaded true, some (.read k head))
  | .read k head => do
    let rc ← load32 (m.resAt (head &&& m.cqMask))
    pure (.resLoaded, some (.release k head rc))
  | .release k head rc => do
    store32 m.cqHead (head + 1)
    pure (.popped rc (k.resultOf rc), none)

end Mapped

/-- The memory, the two threads, and what the kernel is at. -/
structure Raw where
  memory : Memory U8
  push : Option Pushing
  pop : Option Popping
  taken : Nat
  posted : Nat

namespace Raw

/-- The kernel does something in the memory, unless it cannot. -/
def kernelStep (m : Mapped) (taken posted : Nat) : Move → OnMemory (Option (Event × Nat × Nat))
  | .consume => do
    let head ← load32 m.sqHead
    let tail ← load32 m.sqTail
    if taken < (tail - head).toNat then
      let index ← load32 (m.arrayAt ((head + BitVec.ofNat 32 taken) &&& m.sqMask))
      let sqe ← loadSqe (m.sqeAt index)
      pure (some (.consumed sqe, taken + 1, posted))
    else pure none
  | .release n =>
    if n ≤ taken then do
      let head ← load32 m.sqHead
      store32 m.sqHead (head + BitVec.ofNat 32 n)
      pure (some (.released n, taken - n, posted))
    else pure none
  | .post res => do
    let head ← load32 m.cqHead
    let tail ← load32 m.cqTail
    let d := (tail - head).toNat + posted
    if d < m.cqMask.toNat + 1 then
      store32 (m.resAt ((head + BitVec.ofNat 32 d) &&& m.cqMask)) res
      pure (some (.posted res, taken, posted + 1))
    else pure none
  | .commit n =>
    if n ≤ posted then do
      let tail ← load32 m.cqTail
      store32 m.cqTail (tail + BitVec.ofNat 32 n)
      pure (some (.committed n, taken, posted - n))
    else pure none
  | .flag flags => do
    store32 m.sqFlags flags
    pure (some (.flagged flags, taken, posted))
  | .pushCall _ | .push _ | .popCall _ | .pop _ => pure none

/-- The step a move makes, if it can be made; there is no step to be made where memory is used that
is not there. -/
def move (m : Mapped) (s : Raw) : Move → Option (Option (Event × Raw))
  | .pushCall r =>
    match s.push with
    | none => some (some (.pushCalled r, { s with push := some (.tail r) }))
    | some _ => some none
  | .push ok =>
    match s.push with
    | none => some none
    | some pc => do
      let ((e, pc), f) ← m.pushStep ok pc s.memory
      some (some (e, { s with memory := f, push := pc }))
  | .popCall k =>
    match s.pop with
    | none => some (some (.popCalled k, { s with pop := some (.enter k) }))
    | some _ => some none
  | .pop ok =>
    match s.pop with
    | none => some none
    | some pc => do
      let ((e, pc), f) ← m.popStep ok pc s.memory
      some (some (e, { s with memory := f, pop := pc }))
  | mv => do
    let (r, f) ← kernelStep m s.taken s.posted mv s.memory
    some (r.map fun r =>
      (r.1, { s with memory := f, taken := r.2.1, posted := r.2.2 }))

def Step (m : Mapped) (s : Raw) (e : Event) (s' : Raw) : Prop :=
  ∃ mv, s.move m mv = some (some (e, s'))

/-- No call is in progress, and neither is anything in the kernel. -/
def idle (f : Memory U8) : Raw := ⟨f, none, none, 0, 0⟩

end Raw

end EventedIo

end Shclog
