import Shclog.Syscall
import Shclog.UniqueFd

/-! # Files

`open` and `pread` of `file.cpp`, in a debug build. Each makes one system call and names its error;
an error that nobody expects aborts. What the kernel answers is a parameter. -/

namespace Shclog.File

inductive OpenError where
  | retryableWithoutCache
  | pathContainsLink
  | pathCrossesMount
  | invalidParams
  | accessDenied
  | temporarilyUnavailable
  | quotaExceeded
  | systemQuotaExceeded
  | fileAlreadyExists
  | fileNotFound
  | outOfMemory
  | outOfSpace
  | fdIsNotADir
  | fileIsTooBig
  | terminated
  | fdIsDir
  | pathIsTooLong
  | badCwd
  | unexpected
  deriving DecidableEq

inductive ReadError where
  | temporarilyUnavailable
  | badFd
  | fdIsDir
  | badBuffer
  | nonSeekableFd
  | invalidParams
  | terminated
  | unexpected
  deriving DecidableEq

def RESOLVE_CACHED : U64 := 0x20

/-- The `switch` of `open`, unless it aborts. -/
def OpenError.ofErrno (resolve : U64) (e : Errno) : Option OpenError :=
  if e = Errno.acces ∨ e = Errno.perm ∨ e = Errno.rofs then some .accessDenied
  else if e = Errno.badf then some .badCwd
  else if e = Errno.dquot ∨ e = Errno.mfile then some .quotaExceeded
  else if e = Errno.exist then some .fileAlreadyExists
  else if e = Errno.again ∨ e = Errno.busy ∨ e = Errno.txtbsy then
    if resolve &&& RESOLVE_CACHED ≠ 0 then some .retryableWithoutCache
    else some .temporarilyUnavailable
  else if e = Errno.loop then some .pathContainsLink
  else if e = Errno.xdev then some .pathCrossesMount
  else if e = Errno.inval ∨ e = Errno.toobig ∨ e = Errno.fault then some .invalidParams
  else if e = Errno.overflow ∨ e = Errno.fbig then some .fileIsTooBig
  else if e = Errno.intr then some .terminated
  else if e = Errno.isdir then some .fdIsDir
  else if e = Errno.nametoolong then some .pathIsTooLong
  else if e = Errno.nfile then some .systemQuotaExceeded
  else if e = Errno.noent ∨ e = Errno.nxio then some .fileNotFound
  else if e = Errno.nomem then some .outOfMemory
  else if e = Errno.nospc then some .outOfSpace
  else if e = Errno.notdir then some .fdIsNotADir
  else none

/-- The `switch` of `pread`, unless it aborts. -/
def ReadError.ofErrno (e : Errno) : Option ReadError :=
  if e = Errno.fault then some .badBuffer
  else if e = Errno.badf then some .badFd
  else if e = Errno.again then some .temporarilyUnavailable
  else if e = Errno.spipe then some .nonSeekableFd
  else if e = Errno.intr then some .terminated
  else if e = Errno.isdir then some .fdIsDir
  else if e = Errno.inval ∨ e = Errno.nxio ∨ e = Errno.opnotsupp ∨ e = Errno.overflow then
    some .invalidParams
  else none

/-- What a system call returns, and the `errno` after it. -/
abbrev Answer := I64 × I32

/-- `open`, unless it aborts. -/
def «open» (resolve : U64) (answer : Answer) : Option (Except OpenError Fd) :=
  let e := eErrno answer.1 answer.2
  if e = Errno.success then some (.ok (answer.1.setWidth 32))
  else (OpenError.ofErrno resolve e).map .error

/-- `pread`, unless it aborts. -/
def pread (answer : Answer) : Option (Except ReadError U64) :=
  let e := eErrno answer.1 answer.2
  if e = Errno.success then some (.ok answer.1)
  else (ReadError.ofErrno e).map .error

/-! ## The kernel -/

/-- Error numbers are small. -/
def IsErrno (errno : I32) : Prop := 0 < errno.toInt ∧ errno.toInt < 4096

/-- The answers to `openat2`: a descriptor, or none. -/
inductive Opens : Answer → Option Fd → Prop
  | opened {fd : Fd} {errno : I32} (h : 0 ≤ fd.toInt) : Opens (fd.signExtend 64, errno) (some fd)
  | refused {errno : I32} (h : IsErrno errno) : Opens (-1, errno) none

/-- The answers to `pread64`: how many bytes there are now, or none. -/
inductive Reads (len : Nat) : Answer → Option (List U8) → Prop
  | read {bytes : List U8} {errno : I32} (h : bytes.length ≤ len) :
      Reads len (BitVec.ofNat 64 bytes.length, errno) (some bytes)
  | failed {errno : I32} (h : IsErrno errno) : Reads len (-1, errno) none

theorem open_opened {fd : Fd} (h : 0 ≤ fd.toInt) (resolve : U64) (errno : I32) :
    «open» resolve (fd.signExtend 64, errno) = some (.ok fd) := by
  have hext : (fd.signExtend 64).toInt = fd.toInt := BitVec.toInt_signExtend_of_le (by omega)
  have hback : (fd.signExtend 64).setWidth 32 = fd := by
    apply BitVec.eq_of_getLsbD_eq
    intro i hi
    rw [BitVec.getLsbD_setWidth, BitVec.getLsbD_signExtend]
    simp [hi, show i < 64 by omega]
  have hsuccess : eErrno (fd.signExtend 64) errno = Errno.success :=
    eErrno_of_nonneg (by omega)
  simp only [«open», hsuccess, if_true, hback]

theorem open_refused {errno : I32} (h : IsErrno errno) (resolve : U64) :
    «open» resolve (-1, errno) = (OpenError.ofErrno resolve (eErrno (-1) errno)).map .error := by
  simp only [«open», eErrno_ne_success h.1 h.2, if_false]

theorem pread_read {n : Nat} (h : n < 2 ^ 63) (errno : I32) :
    pread (BitVec.ofNat 64 n, errno) = some (.ok (BitVec.ofNat 64 n)) := by
  have hnonneg : 0 ≤ (BitVec.ofNat 64 n).toInt := by
    rw [BitVec.toInt_eq_toNat_of_lt] <;> rw [BitVec.toNat_ofNat] <;> omega
  simp only [pread, eErrno_of_nonneg hnonneg, if_true]

theorem pread_failed {errno : I32} (h : IsErrno errno) :
    pread (-1, errno) = (ReadError.ofErrno (eErrno (-1) errno)).map .error := by
  simp only [pread, eErrno_ne_success h.1 h.2, if_false]

/-- What `open` returns is what the kernel has answered. -/
theorem Opens.returned {answer : Answer} {fd : Option Fd} {resolve : U64} {r : Except OpenError Fd}
    (hkernel : Opens answer fd) (h : «open» resolve answer = some r) :
    (fd = none ∧ ∃ e, r = .error e) ∨ ∃ fd', fd = some fd' ∧ r = .ok fd' ∧ 0 ≤ fd'.toInt := by
  cases hkernel with
  | opened hfd =>
      rw [open_opened hfd, Option.some_inj] at h
      exact .inr ⟨_, rfl, h.symm, hfd⟩
  | refused herrno =>
      rw [open_refused herrno, Option.map_eq_some_iff] at h
      obtain ⟨e, -, rfl⟩ := h
      exact .inl ⟨rfl, e, rfl⟩

theorem Reads.returned {len : Nat} {answer : Answer} {bytes : Option (List U8)}
    {r : Except ReadError U64} (hlen : len < 2 ^ 63) (hkernel : Reads len answer bytes)
    (h : pread answer = some r) :
    (bytes = none ∧ ∃ e, r = .error e) ∨
      ∃ bs n, bytes = some bs ∧ r = .ok n ∧ n.toNat = bs.length := by
  cases hkernel with
  | @read bs errno hle =>
      rw [pread_read (by omega), Option.some_inj] at h
      refine .inr ⟨bs, _, rfl, h.symm, ?_⟩
      rw [BitVec.toNat_ofNat]
      omega
  | failed herrno =>
      rw [pread_failed herrno, Option.map_eq_some_iff] at h
      obtain ⟨e, -, rfl⟩ := h
      exact .inl ⟨rfl, e, rfl⟩

end Shclog.File
