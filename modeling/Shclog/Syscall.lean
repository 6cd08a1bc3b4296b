import Shclog.Types

/-! # Error numbers

`syscall.hpp` and `syscall.cpp`, as far as files and the ring need them. `Errno` is an enumeration
over `u16` that a number is cast into without a look at its names, so it is the number; of the
names, those that the operations tell apart are given here. -/

namespace Shclog

/-- A debug build checks what it asserts, and `IS_DEBUG` holds in it; a release build has `NDEBUG`. -/
inductive Build where
  | debug
  | release
  deriving DecidableEq

abbrev Errno := BitVec 16

namespace Errno

def success : Errno := 0
def perm : Errno := 1
def noent : Errno := 2
def intr : Errno := 4
def nxio : Errno := 6
def toobig : Errno := 7
def badf : Errno := 9
def again : Errno := 11
def nomem : Errno := 12
def acces : Errno := 13
def fault : Errno := 14
def busy : Errno := 16
def exist : Errno := 17
def xdev : Errno := 18
def nodev : Errno := 19
def notdir : Errno := 20
def isdir : Errno := 21
def inval : Errno := 22
def nfile : Errno := 23
def mfile : Errno := 24
def txtbsy : Errno := 26
def fbig : Errno := 27
def nospc : Errno := 28
def spipe : Errno := 29
def rofs : Errno := 30
def pipe : Errno := 32
def range : Errno := 34
def nametoolong : Errno := 36
def loop : Errno := 40
def overflow : Errno := 75
def destaddrreq : Errno := 89
def opnotsupp : Errno := 95
def netdown : Errno := 100
def netunreach : Errno := 101
def dquot : Errno := 122
def unexpected : Errno := BitVec.allOnes 16

end Errno

/-- `_errno_out_of_bounds`. -/
def errnoOutOfBounds (e : I64) : Bool := e.toInt < 0 || e.toInt > 177

/-- `e_errno`, of a result that is a number and of one that is a pointer; `errno` is what the call has
left in it. -/
def eErrno (rc : I64) (errno : I32) : Errno :=
  if rc.toInt ≥ 0 then Errno.success
  else if errnoOutOfBounds (errno.signExtend 64) then Errno.unexpected
  else errno.setWidth 16

def eErrnoPtr (rc : U64) (errno : I32) : Errno :=
  if rc.toInt ≠ -1 then Errno.success else eErrno (-1) errno

theorem eErrno_of_nonneg {rc : I64} {errno : I32} (h : 0 ≤ rc.toInt) :
    eErrno rc errno = Errno.success := if_pos h

/-- A refusal, which comes with the number of an error, is not taken for a success. -/
theorem eErrno_ne_success {errno : I32} (hpos : 0 < errno.toInt) (hlow : errno.toInt < 4096) :
    eErrno (-1) errno ≠ Errno.success := by
  have hnat : errno.toInt = errno.toNat := by
    rw [BitVec.toInt_eq_toNat_cond]
    split
    · rfl
    · next h =>
        rw [BitVec.toInt_eq_toNat_cond, if_neg h] at hpos
        omega
  unfold eErrno
  rw [if_neg (by decide)]
  split
  · decide
  · intro he
    have hz : errno.toNat % 2 ^ 16 = 0 := by
      rw [← BitVec.toNat_setWidth, he]
      rfl
    omega

/-- `io_uring_errno`: a completion carries its error number negated. -/
def ioUringErrno (rc : I64) : Errno :=
  if rc.toInt ≥ 0 then Errno.success
  else if errnoOutOfBounds (-rc) then Errno.unexpected
  else (-rc).setWidth 16

/-- The error number of a negative result, whichever 32-bit result it was. -/
theorem ioUringErrno_of_neg {rc : I32} (h : rc.toInt < 0) :
    ioUringErrno (rc.signExtend 64) =
      if rc.toInt.natAbs ≤ 177 then BitVec.ofNat 16 rc.toInt.natAbs else Errno.unexpected := by
  have hlow : -2 ^ 31 ≤ rc.toInt := rc.le_toInt
  have hext : (rc.signExtend 64).toInt = rc.toInt := BitVec.toInt_signExtend_of_le (by omega)
  -- negating cannot overflow: the result was widened first
  have hneg : (-rc.signExtend 64).toInt = rc.toInt.natAbs := by
    rw [BitVec.toInt_neg, hext, Int.bmod_eq_of_le (by omega) (by omega)]
    omega
  have hnat : (-rc.signExtend 64).toNat = rc.toInt.natAbs := by
    have := BitVec.toInt_eq_toNat_cond (-rc.signExtend 64)
    split at this <;> omega
  unfold ioUringErrno errnoOutOfBounds
  rw [hext, hneg, ← BitVec.ofNat_toNat, hnat, if_neg (by omega)]
  by_cases hb : rc.toInt.natAbs ≤ 177
  · rw [if_neg (by simp only [Bool.or_eq_true, decide_eq_true_eq]; omega), if_pos hb]
  · rw [if_pos (by simp only [Bool.or_eq_true, decide_eq_true_eq]; omega), if_neg hb]

/-- `case Errno::SUCCESS: std::unreachable()` is not reached from a negative result. -/
theorem ioUringErrno_ne_success {rc : I32} (h : rc.toInt < 0) :
    ioUringErrno (rc.signExtend 64) ≠ Errno.success := by
  rw [ioUringErrno_of_neg h]
  split
  · next hb =>
      intro he
      have hz : rc.toInt.natAbs % 2 ^ 16 = 0 := congrArg BitVec.toNat he
      omega
  · decide

end Shclog
