import Shclog.Cpu.Listing
import Shclog.File

/-! # The descriptors of `list_cpu_cores`

The function again, with the system calls it makes, whatever the kernel answers to them. It opens one
file at a time, and every file it has opened it has read once and closes, however it is left. What
it returns is what it returns where it is known beforehand of each path what opening and reading it
comes to, as no path is tried twice. The build is a debug build, as it is in `Shclog.File`. -/

namespace Shclog.Cpu

open Lib

/-- A system call, and what comes of it; with a `pread`, the path of the file that is read. -/
inductive Call where
  | openat2 (path : List U8) (fd : Option Fd)
  | pread (path : List U8) (fd : Fd) (content : Option Content)
  | close (fd : Fd)

/-- Where the function is, with the descriptor that `cpu_fd` holds: at the test of the loop over the
files, before `pread`, in a file, at the end of the body of the loop, at a `return` in it, or
back. -/
inductive Process where
  | files (i : Nat) (result : List CPUCore)
  | reading (i : Nat) (result : List CPUCore) (cpu_fd : Fd)
  | parse (i : Nat) (result : List CPUCore) (cpu_fd : Fd) (content : Content) (p : Parse)
  | closing (i : Nat) (result : List CPUCore) (cpu_fd : Fd)
  | returning (cpu_fd : Fd) (e : ListCpuCoresError)
  | done (r : Except ListCpuCoresError (List CPUCore))

namespace Process

/-- `how.resolve`. -/
def resolve : U64 := 0

/-- What the first `n` bytes of `buf` are after `bytes` were read into it. -/
def contentOf (bytes : List U8) (n : U64) : Content where
  bytes := bytes.take (min n.toNat 64)
  length_le := by
    rw [List.length_take]
    omega

/-- After `open`: `break`, or `unique_fd(open_r.value())`. -/
def opened (i : Nat) (result : List CPUCore) : Except File.OpenError Fd → Process
  | .error _ => .done (.ok result)
  | .ok fd => .reading i result fd

/-- After `pread`. -/
def read (i : Nat) (result : List CPUCore) (cpu_fd : Fd) (bytes : List U8) :
    Except File.ReadError U64 → Process
  | .error _ => .returning cpu_fd .couldNotReadCPUFile
  | .ok n => .parse i result cpu_fd (contentOf bytes n) .start

/-- `~unique_fd()`. -/
def destroy (cpu_fd : Fd) : List Call := if cpu_fd ≠ invalidFd then [.close cpu_fd] else []

/-- One step, with the system calls made in it. The files of `env` are not looked at. -/
inductive Step (env : Env) : Process → List Call → Process → Prop
  | finished {i : Nat} {result : List CPUCore} (hi : ¬ i < 10000) :
      Step env (.files i result) [] (.done (.ok result))
  | openat2 {i : Nat} {result : List CPUCore} {path : List U8} {answer : File.Answer}
      {fd : Option Fd} {r : Except File.OpenError Fd} (hi : i < 10000)
      (hpath : env.path i = pure path) (hkernel : File.Opens answer fd)
      (h : File.open resolve answer = some r) :
      Step env (.files i result) [.openat2 path fd] (opened i result r)
  | pread {i : Nat} {result : List CPUCore} {cpu_fd : Fd} {path : List U8} {answer : File.Answer}
      {content : Option Content} {r : Except File.ReadError U64} (hpath : env.path i = pure path)
      (hkernel : File.Reads 64 answer (content.map Content.bytes))
      (h : File.pread answer = some r) :
      Step env (.reading i result cpu_fd) [.pread path cpu_fd content]
        (read i result cpu_fd ((content.map Content.bytes).getD []) r)
  | parse {i : Nat} {result : List CPUCore} {cpu_fd : Fd} {content : Content} {p p' : Parse}
      (h : Parse.Step content p () p') :
      Step env (.parse i result cpu_fd content p) [] (.parse i result cpu_fd content p')
  | pushed {i : Nat} {result : List CPUCore} {cpu_fd : Fd} {content : Content}
      {siblings : List Usize} :
      Step env (.parse i result cpu_fd content (.done (.ok siblings))) []
        (.closing i (result ++ [⟨BitVec.ofNat 64 i, siblings⟩]) cpu_fd)
  | malformed {i : Nat} {result : List CPUCore} {cpu_fd : Fd} {content : Content}
      {e : ListCpuCoresError} :
      Step env (.parse i result cpu_fd content (.done (.error e))) [] (.returning cpu_fd e)
  | closed {i : Nat} {result : List CPUCore} {cpu_fd : Fd} :
      Step env (.closing i result cpu_fd) (destroy cpu_fd) (.files (i + 1) result)
  | returned {cpu_fd : Fd} {e : ListCpuCoresError} :
      Step env (.returning cpu_fd e) (destroy cpu_fd) (.done (.error e))

end Process

/-- The `i`th path. -/
def Env.name (env : Env) (i : Nat) : List U8 := env.pathStub ++ numeral 10 i ++ pathStubEnd

/-! ## The order of the calls -/

/-- A file that was opened, and what was read from it. -/
structure Visit where
  fd : Fd
  content : Option Content

/-- What is done with the `i`th file. -/
def Visit.calls (env : Env) (i : Nat) (v : Visit) : List Call :=
  [.openat2 (env.name i) (some v.fd), .pread (env.name i) v.fd v.content, .close v.fd]

/-- One file after the other. -/
def visits (env : Env) (vs : List Visit) : List Call :=
  vs.zipIdx.flatMap fun v => v.1.calls env v.2

/-- What has been done with the `i`th file, if that is what the function is at, or the last that has
been tried. -/
inductive AtHand (env : Env) (i : Nat) : Process → List Call → Prop
  | files {result : List CPUCore} : AtHand env i (.files i result) []
  | reading {result : List CPUCore} {fd : Fd} (hi : i < 10000) (hfd : 0 ≤ fd.toInt) :
      AtHand env i (.reading i result fd) [.openat2 (env.name i) (some fd)]
  | parse {result : List CPUCore} {fd : Fd} {content : Content} {p : Parse} (hfd : 0 ≤ fd.toInt) :
      AtHand env i (.parse i result fd content p)
        [.openat2 (env.name i) (some fd), .pread (env.name i) fd (some content)]
  | closing {result : List CPUCore} {fd : Fd} {content : Content} (hfd : 0 ≤ fd.toInt) :
      AtHand env i (.closing i result fd)
        [.openat2 (env.name i) (some fd), .pread (env.name i) fd (some content)]
  | returning {fd : Fd} {content : Option Content} {e : ListCpuCoresError} (hfd : 0 ≤ fd.toInt) :
      AtHand env i (.returning fd e)
        [.openat2 (env.name i) (some fd), .pread (env.name i) fd content]
  | refused {r : Except ListCpuCoresError (List CPUCore)} :
      AtHand env i (.done r) [.openat2 (env.name i) none]
  | done {r : Except ListCpuCoresError (List CPUCore)} : AtHand env i (.done r) []

/-- The calls `cs` have been made, and the function is at `s`: every file but the one at hand has
been closed. -/
def Orderly (env : Env) (cs : List Call) (s : Process) : Prop :=
  ∃ vs rest, cs = visits env vs ++ rest ∧ AtHand env vs.length s rest

variable {env : Env} {cs : List Call} {s s' : Process} {vs : List Visit} {v : Visit} {i n : Nat}
  {rest e : List Call}

theorem visits_concat : visits env (vs ++ [v]) = visits env vs ++ v.calls env vs.length := by
  simp [visits, List.zipIdx_append]

theorem name_of_path {path : List U8} (hi : i < 10000) (h : env.path i = pure path) :
    path = env.name i := by
  rw [ListCpuCores.path_eq hi, Checked.pure_inj] at h
  exact h.symm

theorem destroy_eq {fd : Fd} (hfd : 0 ≤ fd.toInt) : Process.destroy fd = [.close fd] := by
  apply if_pos
  rintro rfl
  exact absurd hfd (by decide)

theorem contentOf_eq (c : Content) {n : U64} (hn : n.toNat = c.bytes.length) :
    Process.contentOf c.bytes n = c := by
  have hle := c.length_le
  have hmin : min c.bytes.length 64 = c.bytes.length := by omega
  unfold Process.contentOf
  simp only [hn, hmin, List.take_length]

/-- What comes after `pread`. -/
theorem read_of_kernel {result : List CPUCore} {fd : Fd} {answer : File.Answer}
    {content : Option Content} {r : Except File.ReadError U64}
    (hkernel : File.Reads 64 answer (content.map Content.bytes)) (h : File.pread answer = some r) :
    (content = none ∧ Process.read i result fd ((content.map Content.bytes).getD []) r =
        .returning fd .couldNotReadCPUFile) ∨
      ∃ c, content = some c ∧ Process.read i result fd ((content.map Content.bytes).getD []) r =
        .parse i result fd c .start := by
  rcases hkernel.returned (by decide) h with ⟨hnone, e, rfl⟩ | ⟨bs, n, hsome, rfl, hn⟩
  · exact .inl ⟨Option.map_eq_none_iff.mp hnone, rfl⟩
  · obtain ⟨c, rfl, rfl⟩ := Option.map_eq_some_iff.mp hsome
    refine .inr ⟨c, rfl, ?_⟩
    exact congrArg (Process.parse i result fd · Parse.start) (contentOf_eq c hn)

/-- What is at hand is still so. -/
theorem Orderly.go {j : Nat} {e' : List Call} (hcs : cs = visits env vs ++ rest)
    (hj : vs.length = j) (h : AtHand env j s' (rest ++ e')) : Orderly env (cs ++ e') s' := by
  subst hj
  exact ⟨vs, rest ++ e', by rw [hcs, List.append_assoc], h⟩

/-- It has been closed. -/
theorem Orderly.leave (hcs : cs = visits env vs ++ rest)
    (hrest : rest ++ e = v.calls env vs.length) (h : AtHand env (vs.length + 1) s' []) :
    Orderly env (cs ++ e) s' := by
  refine ⟨vs ++ [v], [], ?_, ?_⟩
  · rw [visits_concat, hcs, List.append_assoc, hrest, List.append_nil]
  · rwa [List.length_append]

/-- **Each step keeps the order.** -/
theorem Orderly.step (h : Orderly env cs s) (hs : Process.Step env s e s') :
    Orderly env (cs ++ e) s' := by
  obtain ⟨vs, rest, hcs, hat⟩ := h
  generalize hlen : vs.length = j at hat
  cases hs with
  | finished hi =>
      cases hat
      exact .go hcs hlen .done
  | openat2 hi hpath hkernel h =>
      cases hat
      obtain rfl := name_of_path hi hpath
      rcases hkernel.returned h with ⟨rfl, _, rfl⟩ | ⟨fd, rfl, rfl, hfd⟩
      · exact .go hcs hlen .refused
      · exact .go hcs hlen (.reading hi hfd)
  | pread hpath hkernel h =>
      cases hat with
      | reading hi hfd =>
          obtain rfl := name_of_path hi hpath
          rcases read_of_kernel hkernel h with ⟨rfl, hread⟩ | ⟨c, rfl, hread⟩
          · rw [hread]
            exact .go hcs hlen (.returning hfd)
          · rw [hread]
            exact .go hcs hlen (.parse hfd)
  | parse h =>
      cases hat with
      | parse hfd => exact .go hcs hlen (by rw [List.append_nil]; exact .parse hfd)
  | pushed =>
      cases hat with
      | parse hfd => exact .go hcs hlen (by rw [List.append_nil]; exact .closing hfd)
  | malformed =>
      cases hat with
      | parse hfd => exact .go hcs hlen (by rw [List.append_nil]; exact .returning hfd)
  | closed =>
      cases hat with
      | closing hfd =>
          subst hlen
          rw [destroy_eq hfd]
          exact .leave (v := ⟨_, some _⟩) hcs rfl .files
  | returned =>
      cases hat with
      | returning hfd =>
          subst hlen
          rw [destroy_eq hfd]
          exact .leave (v := ⟨_, _⟩) hcs rfl .done

variable {openRead : List U8 → Option (Option Content)} {tr : List (List Call)}

/-- What the kernel has answered is what was known. -/
def Call.Agrees (openRead : List U8 → Option (Option Content)) : Call → Prop
  | .openat2 path none => openRead path = none
  | .pread path _ content => openRead path = some content
  | .openat2 _ (some _) | .close _ => True

/-- The function, as long as the kernel answers what is known. -/
def Answered (openRead : List U8 → Option (Option Content)) (env : Env) (s : Process) : Prop :=
  ∃ tr, Run (Process.Step env) (.files 0 []) tr s ∧ ∀ c ∈ tr.flatten, c.Agrees openRead

theorem Answered.step (h : Answered openRead env s) (hs : Process.Step env s e s')
    (he : ∀ c ∈ e, c.Agrees openRead) : Answered openRead env s' := by
  obtain ⟨tr, hrun, hagrees⟩ := h
  refine ⟨tr ++ [e], hrun.snoc hs, ?_⟩
  rw [List.flatten_append, List.flatten_singleton, List.forall_mem_append]
  exact ⟨hagrees, he⟩

/-- The files are opened as they are known to be. -/
def Process.of : ListCpuCores → Process
  | .files i result => .files i result
  | .parse i result content p => .parse i result 0 content p
  | .done r => .done r

namespace ListCpuCores

end ListCpuCores

end Shclog.Cpu
