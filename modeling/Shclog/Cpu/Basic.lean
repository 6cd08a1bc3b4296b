import Shclog.Fmt
import Shclog.Types

/-! # `list_cpu_cores`

The lists of sibling CPUs that the kernel keeps for each core, as `cpu.hpp` reads them, in a debug
build. The file system is a parameter: it says of each path whether it opens and what is read. The
function is a machine; one of its steps is one turn of the loop over the files, of the loop over
what a file says, or of the loop over a range. -/

namespace Shclog.Cpu

open Lib

/-- `ListCpuCoresError`. -/
inductive ListCpuCoresError where
  | unexpected
  | couldNotReadCPUFile
  | malformedFile
  deriving DecidableEq

/-- `CPUCore`. -/
structure CPUCore where
  core_idx : Usize
  siblings : List Usize
  deriving DecidableEq

/-- What `pread` has put into the buffer of 64 bytes. -/
structure Content where
  bytes : List U8
  length_le : bytes.length ≤ 64

/-! ## The library -/

/-- `std::errc`, as far as `std::from_chars` sets it. -/
inductive Errc where
  | none
  | invalidArgument
  | resultOutOfRange
  deriving DecidableEq

/-- `std::from_chars_result`, and what the value is then; `ptr` counts from the first character. -/
structure FromChars where
  ptr : Nat
  ec : Errc
  value : Usize
  deriving DecidableEq

/-- `std::from_chars`, for an unsigned number in base 10. A value that is not representable is left
as it was, though its digits are passed over. -/
def fromChars (chars : List U8) (value : Usize) : FromChars :=
  let digits := chars.takeWhile isDecimalDigit
  if digits = [] then ⟨0, .invalidArgument, value⟩
  else if decimal digits < 2 ^ 64 then ⟨digits.length, .none, BitVec.ofNat 64 (decimal digits)⟩
  else ⟨digits.length, .resultOutOfRange, value⟩

/-- `std::memchr`, counted from the first byte. -/
def memchr (bytes : List U8) (ch : U8) : Option Nat := bytes.idxOf? ch

/-! ## One file -/

def comma : U8 := 0x2c
def dash : U8 := 0x2d
def newline : U8 := 0x0a

namespace Content

/-- `*p`, with `p` counted from the first byte: only what was read may be looked at. -/
def read (c : Content) (p : Int) : Eval U8 :=
  if 0 ≤ p then
    match c.bytes[p.toNat]? with
    | some b => pure b
    | none => .fault .indexOutOfBounds
  else .fault .indexOutOfBounds

/-- The bytes from `first` to `last`, which are looked at by a function that is given the two. -/
def span (c : Content) (first last : Nat) : Eval (List U8) := do
  Checked.assert (first ≤ last ∧ last ≤ c.bytes.length) .indexOutOfBounds
  pure ((c.bytes.drop first).take (last - first))

end Content

/-- Where the function is in a file: at the test of `while (content_it != content_end)`, at the test
of the loop over a range, `it` being what `content_it` becomes after it, or through with it. -/
inductive Parse where
  | tokens (it : Nat) (siblings : List Usize)
  | counting (it : Nat) (cpu_idx cpu_idx_end : Usize) (siblings : List Usize)
  | done (r : Except ListCpuCoresError (List Usize))

namespace Parse

/-- What follows a number: `if (content_it != comma_p && *content_it == '-')`, up to the loop over
the range, and `++content_it`, whatever is there. -/
def handleRange (c : Content) (it comma_p : Nat) (cpu_idx : Usize) (siblings : List Usize) :
    Eval Parse :=
  if it = comma_p then pure (.tokens (it + 1) siblings)
  else do
    let b ← c.read it
    if b ≠ dash then pure (.tokens (it + 1) siblings)
    else do
      let it := it + 1
      let chars ← c.span it comma_p
      let parse_idx_end_r := fromChars chars 0
      let parse_idx_end_end := it + parse_idx_end_r.ptr
      if parse_idx_end_end = it then pure (.done (.error .malformedFile))
      else pure (.counting parse_idx_end_end (cpu_idx + 1) parse_idx_end_r.value siblings)

/-- The body of `while (content_it != content_end)`. -/
def token (c : Content) (it : Nat) (siblings : List Usize) : Eval Parse := do
  let content_end := c.bytes.length
  let len ← Eval.intCast .usize (content_end - it : Int)
  let chars ← c.span it (it + len.val.toNat)
  let comma_p := ((memchr chars comma).map (it + ·)).getD content_end
  let chars ← c.span it comma_p
  let parse_idx_r := fromChars chars 0
  let parse_idx_end := it + parse_idx_r.ptr
  if parse_idx_end = it then pure (.done (.error .malformedFile))
  else handleRange c parse_idx_end comma_p parse_idx_r.value (siblings ++ [parse_idx_r.value])

/-- `if (*(content_end - 1) != '\n')`. -/
def finish (c : Content) (siblings : List Usize) : Eval Parse := do
  let b ← c.read (c.bytes.length - 1 : Int)
  if b ≠ newline then pure (.done (.error .malformedFile))
  else pure (.done (.ok siblings))

/-- One step, unless the file is through. -/
def next (c : Content) : Parse → Option (Eval Parse)
  | tokens it siblings =>
      some (if it = c.bytes.length then finish c siblings else token c it siblings)
  | counting it cpu_idx cpu_idx_end siblings =>
      if cpu_idx ≤ cpu_idx_end then
        some (pure (.counting it (cpu_idx + 1) cpu_idx_end (siblings ++ [cpu_idx])))
      else some (pure (.tokens (it + 1) siblings))
  | done _ => none

def start : Parse := tokens 0 []

def Step (c : Content) (p : Parse) (_ : Unit) (p' : Parse) : Prop := next c p = some (pure p')

end Parse

/-! ## All files -/

/-- What the function is instantiated with, and what it finds: `PATH_STUB`, without the zero that
ends it; what is left in a buffer in which a number did not fit; and of each path whether it opens
and, if it can be read, what is read. -/
structure Env where
  pathStub : List U8
  left : Nat → U8
  openRead : List U8 → Option (Option Content)

def pathStubEnd : List U8 := bytesOf "/topology/thread_siblings_list"

namespace Env

/-- The path of the `i`th file: `std::to_chars` into the four bytes after the stub, and the rest
right after the number. -/
def path (env : Env) (i : Nat) : Eval (List U8) := do
  let cpu_idx_buf : Slice U8 := ⟨fun _ => 0, 4, by decide⟩
  let (data, path_cpu_idx_end, fmt_err) :=
    Fmt.toChars env.left cpu_idx_buf.data cpu_idx_buf.len i 10
  Checked.assert (fmt_err = .none) .assertion
  pure (env.pathStub ++ { cpu_idx_buf with data }.toList path_cpu_idx_end ++ pathStubEnd)

end Env

/-- Where the function is: at the test of the loop over the files, in a file, or back. -/
inductive ListCpuCores where
  | files (i : Nat) (result : List CPUCore)
  | parse (i : Nat) (result : List CPUCore) (content : Content) (p : Parse)
  | done (r : Except ListCpuCoresError (List CPUCore))

namespace ListCpuCores

/-- `open`, and `pread` of what opens. -/
def file (env : Env) (i : Nat) (result : List CPUCore) : Eval ListCpuCores := do
  let path ← env.path i
  match env.openRead path with
  | none => pure (.done (.ok result))
  | some none => pure (.done (.error .couldNotReadCPUFile))
  | some (some content) => pure (.parse i result content .start)

def next (env : Env) : ListCpuCores → Option (Eval ListCpuCores)
  | files i result => some (if i < 10000 then file env i result else pure (.done (.ok result)))
  | parse _ _ _ (.done (.error e)) => some (pure (.done (.error e)))
  | parse i result _ (.done (.ok siblings)) =>
      some (pure (.files (i + 1) (result ++ [⟨BitVec.ofNat 64 i, siblings⟩])))
  | parse i result content p =>
      (p.next content).map fun x => do
        let p ← x
        pure (.parse i result content p)
  | done _ => none

/-- `result.push_back(std::move(core))`, if this is what comes next. -/
def pushed : ListCpuCores → Option CPUCore
  | parse i _ _ (.done (.ok siblings)) => some ⟨BitVec.ofNat 64 i, siblings⟩
  | _ => none

def Step (env : Env) (s : ListCpuCores) (e : Option CPUCore) (s' : ListCpuCores) : Prop :=
  next env s = some (pure s') ∧ e = pushed s

end ListCpuCores

end Shclog.Cpu
