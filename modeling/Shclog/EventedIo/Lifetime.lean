import Shclog.EventedIo.Create
import Shclog.Lib.Scope

/-! # `EventedIo` from `create` to its destructor

What `create` acquires is the descriptor of the ring and the mappings, and each is held by an object
of the function until the new `EventedIo` takes it over: a `unique_fd`, or a `unique_ptr` with an
`MmapDeleter`. Here is `create` once more, with what its objects hold: it returns the same, and what it
comes to hold are just the descriptor and the mappings that the kernel makes. Wherever it returns,
what is not handed over is given back. -/

namespace Shclog.EventedIo

open Lib

/-! ## What is held -/

/-- A descriptor for `close`, or what `munmap` is called with. -/
inductive Resource where
  | fd (fd : I32)
  | region (ptr : U64) (size : Usize)
  deriving DecidableEq

def Stop.isAbort {ε : Type} : Stop ε → Bool
  | .abort => true
  | .returned _ => false

abbrev Owning (α : Type) := Scoped Resource (Stop CreateError) α

/-- What a `unique_fd` closes. -/
def fdResource (fd : I32) : List Resource := if fd ≠ -1 then [.fd fd] else []

/-- What a `unique_ptr` has its `MmapDeleter` unmap. -/
def UniquePtr.resource (p : UniquePtr) : List Resource :=
  if p.ptr ≠ 0 then [.region p.ptr p.size] else []

def ownFd (fd : I32) : Owning Unit := if fd ≠ -1 then .own (.fd fd) else pure ()

def ownPtr (p : UniquePtr) : Owning Unit :=
  if p.ptr ≠ 0 then .own (.region p.ptr p.size) else pure ()

/-- The call of a function that keeps nothing. -/
def calling {ω α : Type} (x : Logged ω (Stop CreateError) α) : Owning α :=
  .ret Stop.isAbort x.result

/-! ## `create`, and what it holds -/

/-- `mapRings`, with its mappings held. -/
def ownRings (build : Build) (kernel : Kernel) (ring_fd : I32) (params : Params) :
    Owning (UniquePtr × Option UniquePtr) := do
  let single_mmap := params.singleMmap
  let sq_size := if single_mmap then stdMax params.sqSize params.cqSize else params.sqSize
  let cq_size := if single_mmap then sq_size else params.cqSize
  let sq_ptr ← calling
    ((ioUringMmap build kernel sizeofU8 ring_fd sq_size offSqRing).mapStop CreateError.ofMmap)
  ownPtr sq_ptr
  if single_mmap then pure (sq_ptr, none)
  else do
    let cq_ptr ← calling
      ((ioUringMmap build kernel sizeofU8 ring_fd cq_size offCqRing).mapStop CreateError.ofMmap)
    ownPtr cq_ptr
    pure (sq_ptr, some cq_ptr)

/-- `assemble`, with the submission entries held. -/
def ownEntries (build : Build) (kernel : Kernel) (flags : U32) (ring_fd : I32) (params : Params)
    (sq_ptr : UniquePtr) (cq_ptr : Option UniquePtr) : Owning Mapped := do
  let sq := fun (off : U32) => sq_ptr.ptr + off.setWidth 64
  let sq_head ← calling (ptrCast build 4 (sq params.sqOff.head))
  let sq_tail ← calling (ptrCast build 4 (sq params.sqOff.tail))
  let sq_flags ← calling (ptrCast build 4 (sq params.sqOff.flags))
  let sq_array ← calling (ptrCast build 4 (sq params.sqOff.array))
  let sq_dropped ← calling (ptrCast build 4 (sq params.sqOff.dropped))
  let sq_mask ← calling (ptrCast build 4 (sq params.sqOff.ringMask))
  let sqes ← calling ((ioUringMmap build kernel sizeofSqe ring_fd
    (params.sqEntries.setWidth 64 * sizeofSqe) offSqes).mapStop CreateError.ofMmap)
  ownPtr sqes
  let cq := fun (off : U32) => (cq_ptr.getD sq_ptr).ptr + off.setWidth 64
  let cq_head ← calling (ptrCast build 4 (cq params.cqOff.head))
  let cq_tail ← calling (ptrCast build 4 (cq params.cqOff.tail))
  let cq_flags ← calling (ptrCast build 4 (cq params.cqOff.flags))
  let cq_overflow ← calling (ptrCast build 4 (cq params.cqOff.overflow))
  let cq_mask ← calling (ptrCast build 4 (cq params.cqOff.ringMask))
  let cqes ← calling (ptrCast build 8 (cq params.cqOff.cqes))
  if kernel.allocates then
    pure {
      ringFd := ring_fd, sqPtr := sq_ptr, cqPtr := cq_ptr, sqHead := sq_head, sqTail := sq_tail,
      sqFlags := sq_flags, sqArray := sq_array, sqDropped := sq_dropped,
      sqMask := kernel.load sq_mask, sqes, cqHead := cq_head, cqTail := cq_tail,
      cqFlags := cq_flags, cqOverflow := cq_overflow, cqMask := kernel.load cq_mask, cqes,
      isSqPoll := flags &&& setupSqpoll != 0,
      registeredRingFd := kernel.registerRingFd ring_fd }
  else .stop Stop.isAbort (.returned .outOfMemory)

/-- `EventedIo::create`, with all that it acquires held. -/
def ownAll (build : Build) (kernel : Kernel) (capacity flags : U32) : Owning Mapped :=
  if capacity = 0 ∨ capacity &&& (capacity - 1) ≠ 0 then
    .stop Stop.isAbort (.returned .invalidCapacity)
  else do
    let setup ← calling ((ioUringSetup build kernel capacity flags).mapStop CreateError.ofSetup)
    ownFd setup.1
    let rings ← ownRings build kernel setup.1 setup.2
    ownEntries build kernel flags setup.1 setup.2 rings.1 rings.2

/-- What the destructor of an object gives back: its members are destroyed in the reverse order of
their declaration. -/
def Mapped.members (m : Mapped) : List Resource :=
  m.sqes.resource ++ (m.cqPtr.elim [] UniquePtr.resource ++
    (m.sqPtr.resource ++ fdResource m.ringFd))

/-- All that is done with resources, if an object that comes of it is destroyed. In a debug build, its
destructor asserts something first (`Registration` says when that `holds`), and aborts if not. -/
def lifetime (build : Build) (kernel : Kernel) (capacity flags : U32) (holds : Bool) :
    List (Act Resource) :=
  (ownAll build kernel capacity flags []).1 ++
    match (ownAll build kernel capacity flags []).2 with
    | .ok m => if build = .debug ∧ holds = false then [] else m.1.members.map .release
    | .error _ => []

/-! ## What the kernel gives -/

/-- The kernel makes this ring. -/
def Kernel.SetsUp (kernel : Kernel) (capacity flags : U32) : Prop :=
  ¬ (capacity = 0 ∨ capacity &&& (capacity - 1) ≠ 0) ∧
    eErrno (kernel.ioUringSetup capacity flags).1 (kernel.ioUringSetup capacity flags).2.1
      = Errno.success

instance (kernel : Kernel) (capacity flags : U32) : Decidable (kernel.SetsUp capacity flags) :=
  inferInstanceAs (Decidable (_ ∧ _))

instance (kernel : Kernel) (bytes : Usize) (fd : I32) (offset : I64) :
    Decidable (kernel.Maps bytes fd offset) := inferInstanceAs (Decidable (_ = _))

/-- The mapping that is made where one is asked for. -/
def Length.mapping (kernel : Kernel) (fd : I32) : Length → List Resource
  | .mmap bytes offset =>
    if kernel.Maps bytes fd offset then
      UniquePtr.resource ⟨(kernel.mmap bytes fd offset).1, bytes⟩
    else []
  | .deleter _ _ => []

/-- The mapping that a deleter is left for. -/
def Length.deleted (kernel : Kernel) (fd : I32) : Length → List Resource
  | .mmap _ _ => []
  | .deleter size offset => UniquePtr.resource ⟨(kernel.mmap size fd offset).1, size⟩

/-- All that the kernel gives in a call of `create`: the ring, and one mapping for each `::mmap` that
succeeds. -/
def given (build : Build) (kernel : Kernel) (capacity flags : U32) : List Resource :=
  (if kernel.SetsUp capacity flags then fdResource (kernel.ringFd capacity flags) else []) ++
    (create build kernel capacity flags).record.flatMap
      (Length.mapping kernel (kernel.ringFd capacity flags))

section

variable {build : Build} {kernel : Kernel} {capacity flags : U32} {fd : I32} {params : Params}
  {α β : Type}

/-! ## It is the same function -/

/-- It returns the same, and comes to hold what is mapped. -/
def Mirrors (kernel : Kernel) (fd : I32) (x : Owning α) (y : Recorded CreateError α) : Prop :=
  x.Agrees (y.record.flatMap (Length.mapping kernel fd)) y.result

theorem Mirrors.pure (a : α) :
    Mirrors kernel fd (Pure.pure a) (Pure.pure a : Recorded CreateError α) :=
  Scoped.Agrees.pure a

theorem Mirrors.stop (e : Stop CreateError) :
    Mirrors kernel fd (Scoped.stop Stop.isAbort e) (Logged.stop e : Recorded CreateError α) :=
  Scoped.Agrees.stop

/-- What an object acquires is held by it. -/
theorem ownPtr_eq (p : UniquePtr) (held : List Resource) :
    ownPtr p held = (p.resource.map .acquire, .ok ((), p.resource ++ held)) := by
  unfold ownPtr UniquePtr.resource
  split <;> rfl

theorem ownFd_eq (fd : I32) (held : List Resource) :
    ownFd fd held = ((fdResource fd).map .acquire, .ok ((), fdResource fd ++ held)) := by
  unfold ownFd fdResource
  split <;> rfl

theorem agrees_ownPtr (p : UniquePtr) : (ownPtr p).Agrees p.resource (.ok ()) := by
  intro held
  rw [ownPtr_eq]
  exact ⟨Act.acquired_map_acquire _, rfl⟩

theorem agrees_ownFd (fd : I32) : (ownFd fd).Agrees (fdResource fd) (.ok ()) := by
  intro held
  rw [ownFd_eq]
  exact ⟨Act.acquired_map_acquire _, rfl⟩

/-- Two parts that mirror two parts. -/
theorem Mirrors.bind {x : Owning α} {y : Recorded CreateError α} {f : α → Owning β}
    {g : α → Recorded CreateError β} (hx : Mirrors kernel fd x y)
    (h : ∀ a, Mirrors kernel fd (f a) (g a)) : Mirrors kernel fd (x >>= f) (y >>= g) := by
  unfold Mirrors at hx ⊢
  cases hres : y.result with
  | error e =>
      rw [hres] at hx
      rw [Logged.record_bind_error hres, Logged.result_bind, hres]
      exact hx.bind_error
  | ok a =>
      rw [hres] at hx
      rw [Logged.record_bind_ok hres, Logged.result_bind, hres, List.flatMap_append]
      exact hx.bind_ok (h a)

/-- A call that maps nothing. -/
theorem Mirrors.calling {y : Recorded CreateError α} (hy : y.record = []) :
    Mirrors kernel fd (EventedIo.calling y) y := by
  unfold Mirrors
  rw [hy]
  exact .ret y.result

/-- What `io_uring_mmap` leaves behind where the kernel maps what it asks for. -/
theorem ioUringMmap_of_maps {sizeofT size : Usize} {off : U64}
    (h : kernel.Maps (size * sizeofT) fd off) :
    (ioUringMmap build kernel sizeofT fd size off).mapStop CreateError.ofMmap =
      ⟨[.mmap (size * sizeofT) off, .deleter (size * sizeofT) off],
        .ok ⟨(kernel.mmap (size * sizeofT) fd off).1, size * sizeofT⟩⟩ := by
  unfold ioUringMmap mmap
  have h' : eErrnoPtr (kernel.mmap (size * sizeofT) fd off).1
      (kernel.mmap (size * sizeofT) fd off).2 = Errno.success := h
  dsimp only
  rw [if_pos h']
  rfl

theorem MmapError.ofErrno_release (e : Errno) : MmapError.ofErrno .release e ≠ .abort := by
  unfold MmapError.ofErrno debugEErrno
  split_ifs <;> simp

theorem IoUringSetupError.ofErrno_release (e : Errno) :
    IoUringSetupError.ofErrno .release e ≠ .abort := by
  unfold IoUringSetupError.ofErrno debugEErrno
  split_ifs <;> simp

/-- And where it does not. -/
theorem ioUringMmap_of_not_maps (build : Build) {sizeofT size : Usize} {off : U64}
    (h : ¬ kernel.Maps (size * sizeofT) fd off) :
    ∃ e, (ioUringMmap build kernel sizeofT fd size off).mapStop CreateError.ofMmap =
      ⟨[.mmap (size * sizeofT) off], .error e⟩ ∧ (build = .release → e ≠ .abort) := by
  unfold ioUringMmap mmap
  have h' : ¬ eErrnoPtr (kernel.mmap (size * sizeofT) fd off).1
      (kernel.mmap (size * sizeofT) fd off).2 = Errno.success := h
  dsimp only
  rw [if_neg h']
  refine ⟨_, rfl, ?_⟩
  rintro rfl
  cases hstop : MmapError.ofErrno .release (eErrnoPtr (kernel.mmap (size * sizeofT) fd off).1
      (kernel.mmap (size * sizeofT) fd off).2) with
  | abort => exact absurd hstop (MmapError.ofErrno_release _)
  | returned e =>
      cases e <;> simp [CreateError.ofMmap, debugEErrno]

/-- **A mapping** is held as it was made. -/
theorem Mirrors.map {sizeofT size : Usize} {off : U64} {f : UniquePtr → Owning β}
    {g : UniquePtr → Recorded CreateError β} (h : ∀ p, Mirrors kernel fd (f p) (g p)) :
    Mirrors kernel fd
      (EventedIo.calling
        ((ioUringMmap build kernel sizeofT fd size off).mapStop CreateError.ofMmap) >>= fun p =>
          ownPtr p >>= fun _ => f p)
      ((ioUringMmap build kernel sizeofT fd size off).mapStop CreateError.ofMmap >>= g) := by
  unfold Mirrors
  -- the record of the call shows the mapping just where the kernel makes it
  by_cases hmaps : kernel.Maps (size * sizeofT) fd off
  · rw [ioUringMmap_of_maps hmaps]
    generalize hp : (⟨(kernel.mmap (size * sizeofT) fd off).1, size * sizeofT⟩ : UniquePtr) = p
    generalize hrecord : [Length.mmap (size * sizeofT) off, .deleter (size * sizeofT) off] = record
    have hmapping : record.flatMap (Length.mapping kernel fd) = p.resource := by
      rw [← hrecord, ← hp]
      simp [Length.mapping, hmaps]
    have hcall : (EventedIo.calling (⟨record, .ok p⟩ : Recorded CreateError _)).Agrees [] (.ok p) :=
      .ret _
    have hown : (ownPtr p >>= fun _ => f p).Agrees
        (p.resource ++ (g p).record.flatMap (Length.mapping kernel fd)) (g p).result :=
      (agrees_ownPtr p).bind_ok (h p)
    rw [Logged.record_bind_ok rfl, List.flatMap_append, hmapping]
    exact hcall.bind_ok hown
  · obtain ⟨e, he, -⟩ := ioUringMmap_of_not_maps build hmaps
    rw [he, Logged.record_bind_error rfl]
    have hmapping : [Length.mmap (size * sizeofT) off].flatMap (Length.mapping kernel fd) = [] := by
      simp [Length.mapping, hmaps]
    have hcall : (EventedIo.calling (⟨[.mmap (size * sizeofT) off], .error e⟩ :
        Recorded CreateError UniquePtr)).Agrees [] (.error e) := .ret _
    rw [hmapping]
    exact hcall.bind_error

theorem mirrors_ptrCast {n : Nat} {p : U64} {f : U64 → Owning β} {g : U64 → Recorded CreateError β}
    (h : ∀ a, Mirrors kernel fd (f a) (g a)) :
    Mirrors kernel fd (calling (ptrCast build n p : Recorded CreateError U64) >>= f)
      (ptrCast build n p >>= g) := by
  refine .bind (.calling ?_) h
  unfold ptrCast
  split <;> rfl

theorem mirrors_ownRings :
    Mirrors kernel fd (ownRings build kernel fd params) (mapRings build kernel fd params) := by
  unfold ownRings mapRings
  refine .map fun sq_ptr => ?_
  split
  · exact .pure _
  · exact .map fun cq_ptr => .pure _

theorem mirrors_ownEntries {sq_ptr : UniquePtr} {cq_ptr : Option UniquePtr} :
    Mirrors kernel fd (ownEntries build kernel flags fd params sq_ptr cq_ptr)
      (assemble build kernel flags fd params sq_ptr cq_ptr) := by
  unfold ownEntries assemble
  refine mirrors_ptrCast fun _ => mirrors_ptrCast fun _ => mirrors_ptrCast fun _ =>
    mirrors_ptrCast fun _ => mirrors_ptrCast fun _ => mirrors_ptrCast fun _ => .map fun sqes => ?_
  refine mirrors_ptrCast fun _ => mirrors_ptrCast fun _ => mirrors_ptrCast fun _ =>
    mirrors_ptrCast fun _ => mirrors_ptrCast fun _ => mirrors_ptrCast fun _ => ?_
  split
  · exact .pure _
  · exact .stop _

theorem mirrors_afterSetup (build : Build) (kernel : Kernel) (flags : U32) (fd : I32)
    (params : Params) : Mirrors kernel fd
    (ownRings build kernel fd params >>= fun rings =>
      ownEntries build kernel flags fd params rings.1 rings.2)
    (mapRings build kernel fd params >>= fun rings =>
      assemble build kernel flags fd params rings.1 rings.2) :=
  mirrors_ownRings.bind fun _ => mirrors_ownEntries

/-- **What `create` comes to hold** is what the kernel gives it. -/
theorem agrees_ownAll : (ownAll build kernel capacity flags).Agrees
    (given build kernel capacity flags) (create build kernel capacity flags).result := by
  unfold given ownAll create
  by_cases hcap : capacity = 0 ∨ capacity &&& (capacity - 1) ≠ 0
  · -- no system call is made
    have hnone : ¬ kernel.SetsUp capacity flags := fun h => h.1 hcap
    rw [if_pos hcap, if_pos hcap, if_neg hnone]
    exact .stop
  · rw [if_neg hcap, if_neg hcap]
    have hrecord : (ioUringSetup build kernel capacity flags).record = [] :=
      List.eq_nil_iff_forall_not_mem.mpr fun _ => not_mem_record_ioUringSetup
    have hcall : (calling ((ioUringSetup build kernel capacity flags).mapStop
        CreateError.ofSetup)).Agrees [] _ := .ret _
    cases hres : ((ioUringSetup build kernel capacity flags).mapStop CreateError.ofSetup).result with
    | error e =>
        have hfail : ¬ kernel.SetsUp capacity flags := by
          intro h
          have hok : (ioUringSetup build kernel capacity flags).result = .ok _ :=
            result_ioUringSetup.mpr ⟨h.2, rfl⟩
          rw [Logged.result_mapStop.mpr hok] at hres
          cases hres
        rw [hres] at hcall
        rw [if_neg hfail, Logged.record_bind_error hres, Logged.record_mapStop, hrecord,
          Logged.result_bind, hres]
        exact hcall.bind_error
    | ok setup =>
        obtain ⟨hsuccess, rfl⟩ := result_ioUringSetup.mp (Logged.result_mapStop.mp hres)
        -- the descriptor comes first, and then what is mapped through it
        have hrest := mirrors_afterSetup build kernel flags (kernel.ringFd capacity flags)
          (kernel.params capacity flags)
        rw [hres] at hcall
        rw [if_pos ⟨hcap, hsuccess⟩, Logged.record_bind_ok hres, Logged.record_mapStop, hrecord,
          Logged.result_bind, hres]
        exact hcall.bind_ok ((agrees_ownFd _).bind_ok hrest)

/-! ## Deleters, and aborts -/

/-- There is a deleter for each mapping, of the same length, and only a debug build aborts. -/
structure Proper (build : Build) (kernel : Kernel) (fd : I32) (y : Recorded CreateError α) :
    Prop where
  deleters : y.record.flatMap (Length.deleted kernel fd) =
    y.record.flatMap (Length.mapping kernel fd)
  goesOn : build = .release → y.result ≠ .error .abort

theorem Proper.pure (a : α) :
    Proper build kernel fd (Pure.pure a : Recorded CreateError α) :=
  ⟨rfl, fun _ h => by cases h⟩

theorem Proper.returned (e : CreateError) :
    Proper build kernel fd (Logged.stop (.returned e) : Recorded CreateError α) :=
  ⟨rfl, fun _ h => by cases h⟩

theorem Proper.bind {y : Recorded CreateError α} {g : α → Recorded CreateError β}
    (hy : Proper build kernel fd y) (h : ∀ a, y.result = .ok a → Proper build kernel fd (g a)) :
    Proper build kernel fd (y >>= g) := by
  refine ⟨?_, ?_⟩
  · cases hres : y.result with
    | error e =>
        rw [Logged.record_bind_error hres]
        exact hy.deleters
    | ok a =>
        rw [Logged.record_bind_ok hres, List.flatMap_append, List.flatMap_append, hy.deleters,
          (h a hres).deleters]
  · intro hbuild habort
    rcases Logged.result_bind_error.mp habort with hfirst | ⟨a, ha, hthen⟩
    · exact hy.goesOn hbuild hfirst
    · exact (h a ha).goesOn hbuild hthen

theorem proper_map {sizeofT size : Usize} {off : U64} : Proper build kernel fd
    ((ioUringMmap build kernel sizeofT fd size off).mapStop CreateError.ofMmap) := by
  by_cases hmaps : kernel.Maps (size * sizeofT) fd off
  · rw [ioUringMmap_of_maps hmaps]
    refine ⟨?_, fun _ h => by cases h⟩
    simp [Length.mapping, Length.deleted, hmaps]
  · obtain ⟨e, he, hgo⟩ := ioUringMmap_of_not_maps build hmaps
    rw [he]
    refine ⟨?_, fun hbuild h => hgo hbuild (Except.error.inj h)⟩
    simp [Length.mapping, Length.deleted, hmaps]

theorem proper_ptrCast {n : Nat} {p : U64} :
    Proper build kernel fd (ptrCast build n p : Recorded CreateError U64) := by
  unfold ptrCast
  split
  · next h =>
      refine ⟨rfl, ?_⟩
      intro hbuild
      rw [hbuild] at h
      cases h.1
  · exact .pure p

theorem proper_setup : Proper build kernel fd
    ((ioUringSetup build kernel capacity flags).mapStop CreateError.ofSetup) := by
  unfold ioUringSetup
  dsimp only
  split
  · exact .pure _
  · refine ⟨rfl, ?_⟩
    rintro rfl habort
    have hstop := IoUringSetupError.ofErrno_release
      (eErrno (kernel.ioUringSetup capacity flags).1 (kernel.ioUringSetup capacity flags).2.1)
    cases he : IoUringSetupError.ofErrno .release
        (eErrno (kernel.ioUringSetup capacity flags).1 (kernel.ioUringSetup capacity flags).2.1) with
    | abort => exact hstop he
    | returned e =>
        rw [he] at habort
        cases e <;> cases habort

theorem proper_mapRings : Proper build kernel fd (mapRings build kernel fd params) := by
  unfold mapRings
  refine .bind proper_map fun sq_ptr _ => ?_
  split
  · exact .pure _
  · exact .bind proper_map fun cq_ptr _ => .pure _

theorem proper_assemble {sq_ptr : UniquePtr} {cq_ptr : Option UniquePtr} :
    Proper build kernel fd (assemble build kernel flags fd params sq_ptr cq_ptr) := by
  unfold assemble
  refine .bind proper_ptrCast fun _ _ => .bind proper_ptrCast fun _ _ =>
    .bind proper_ptrCast fun _ _ => .bind proper_ptrCast fun _ _ => .bind proper_ptrCast fun _ _ =>
    .bind proper_ptrCast fun _ _ => .bind proper_map fun sqes _ => ?_
  refine .bind proper_ptrCast fun _ _ => .bind proper_ptrCast fun _ _ =>
    .bind proper_ptrCast fun _ _ => .bind proper_ptrCast fun _ _ => .bind proper_ptrCast fun _ _ =>
    .bind proper_ptrCast fun _ _ => ?_
  split
  · exact .pure _
  · exact .returned _

theorem proper_create : Proper build kernel (kernel.ringFd capacity flags)
    (create build kernel capacity flags) := by
  unfold create
  split
  · exact .returned _
  · refine .bind proper_setup fun setup hsetup => .bind ?_ fun _ _ => ?_
    -- what is mapped is mapped through the descriptor that was set up
    · rw [Logged.result_mapStop, result_ioUringSetup] at hsetup
      rw [hsetup.2]
      exact proper_mapRings
    · rw [Logged.result_mapStop, result_ioUringSetup] at hsetup
      rw [hsetup.2]
      exact proper_assemble

/-! ## It is tidy -/

theorem tidy_calling {ω : Type} (x : Logged ω (Stop CreateError) α) :
    (calling x).Tidy Stop.isAbort := .ret x.result

theorem tidy_ownPtr (p : UniquePtr) : (ownPtr p).Tidy Stop.isAbort :=
  .ite (.own _) (.pure ())

theorem tidy_ownRings : (ownRings build kernel fd params).Tidy Stop.isAbort :=
  .bind (tidy_calling _) fun sq_ptr => .bind (tidy_ownPtr sq_ptr) fun _ => .ite (.pure _)
    (.bind (tidy_calling _) fun cq_ptr => .bind (tidy_ownPtr cq_ptr) fun _ => .pure _)

theorem tidy_ownEntries {sq_ptr : UniquePtr} {cq_ptr : Option UniquePtr} :
    (ownEntries build kernel flags fd params sq_ptr cq_ptr).Tidy Stop.isAbort := by
  have hcall : ∀ {ω α β : Type} (x : Logged ω (Stop CreateError) α) {k : α → Owning β},
      (∀ a, (k a).Tidy Stop.isAbort) → (calling x >>= k).Tidy Stop.isAbort :=
    fun x _ hk => .bind (tidy_calling x) hk
  refine hcall _ fun _ => hcall _ fun _ => hcall _ fun _ => hcall _ fun _ => hcall _ fun _ =>
    hcall _ fun _ => hcall _ fun sqes => .bind (tidy_ownPtr sqes) fun _ => ?_
  refine hcall _ fun _ => hcall _ fun _ => hcall _ fun _ => hcall _ fun _ => hcall _ fun _ =>
    hcall _ fun _ => ?_
  exact .ite (.pure _) (.stop _)

theorem tidy_ownAll : (ownAll build kernel capacity flags).Tidy Stop.isAbort :=
  .ite (.stop _) (.bind (tidy_calling _) fun _ => .bind (.ite (.own _) (.pure ()))
    fun _ => .bind tidy_ownRings fun _ => tidy_ownEntries)

/-! ## What the new object owns -/

variable {held held' : List Resource} {acts : List (Act Resource)} {b : β} {m : Mapped}

theorem held_ownRings {r : UniquePtr × Option UniquePtr}
    (h : ownRings build kernel fd params held = (acts, .ok (r, held'))) :
    held' = r.2.elim [] UniquePtr.resource ++ (r.1.resource ++ held) := by
  unfold ownRings at h
  obtain ⟨sq_ptr, -, h⟩ := Scoped.ret_bind_ok_iff.mp h
  obtain ⟨_, h⟩ := Scoped.rest_of_bind_ok (ownPtr_eq ..) h
  split at h
  · cases h
    rfl
  · obtain ⟨cq_ptr, -, h⟩ := Scoped.ret_bind_ok_iff.mp h
    obtain ⟨_, h⟩ := Scoped.rest_of_bind_ok (ownPtr_eq ..) h
    cases h
    rfl

theorem held_ownEntries {sq_ptr : UniquePtr} {cq_ptr : Option UniquePtr}
    (h : ownEntries build kernel flags fd params sq_ptr cq_ptr held = (acts, .ok (m, held'))) :
    held' = m.sqes.resource ++ held ∧ m.ringFd = fd ∧ m.sqPtr = sq_ptr ∧ m.cqPtr = cq_ptr := by
  unfold ownEntries at h
  obtain ⟨_, -, h⟩ := Scoped.ret_bind_ok_iff.mp h
  obtain ⟨_, -, h⟩ := Scoped.ret_bind_ok_iff.mp h
  obtain ⟨_, -, h⟩ := Scoped.ret_bind_ok_iff.mp h
  obtain ⟨_, -, h⟩ := Scoped.ret_bind_ok_iff.mp h
  obtain ⟨_, -, h⟩ := Scoped.ret_bind_ok_iff.mp h
  obtain ⟨_, -, h⟩ := Scoped.ret_bind_ok_iff.mp h
  obtain ⟨sqes, -, h⟩ := Scoped.ret_bind_ok_iff.mp h
  obtain ⟨_, h⟩ := Scoped.rest_of_bind_ok (ownPtr_eq ..) h
  obtain ⟨_, -, h⟩ := Scoped.ret_bind_ok_iff.mp h
  obtain ⟨_, -, h⟩ := Scoped.ret_bind_ok_iff.mp h
  obtain ⟨_, -, h⟩ := Scoped.ret_bind_ok_iff.mp h
  obtain ⟨_, -, h⟩ := Scoped.ret_bind_ok_iff.mp h
  obtain ⟨_, -, h⟩ := Scoped.ret_bind_ok_iff.mp h
  obtain ⟨_, -, h⟩ := Scoped.ret_bind_ok_iff.mp h
  split at h
  · cases h
    exact ⟨rfl, rfl, rfl, rfl⟩
  · cases h

/-- What is held in the end are the members of the object. -/
theorem held_ownAll (h : ownAll build kernel capacity flags [] = (acts, .ok (m, held'))) :
    held' = m.members := by
  unfold ownAll at h
  split at h
  · cases h
  · obtain ⟨setup, -, h⟩ := Scoped.ret_bind_ok_iff.mp h
    obtain ⟨_, h⟩ := Scoped.rest_of_bind_ok (ownFd_eq ..) h
    obtain ⟨_, _, rings, held₁, h₁, h₂, -⟩ := Scoped.bind_ok_iff.mp h
    obtain ⟨rfl, hfd, hsq, hcq⟩ := held_ownEntries h₂
    rw [held_ownRings h₁, ← hsq, ← hcq, ← hfd, List.append_nil]
    rfl

/-! ## The theorem -/

/-- What becomes of what the kernel gives in a call of `create`, and of the object that the call
makes, which is destroyed in the end; `holds` says whether what its destructor asserts holds. -/
structure Cleans (build : Build) (kernel : Kernel) (capacity flags : U32) (holds : Bool) :
    Prop where
  /-- unless the process ends, all of it is given back, the last one first; -/
  balanced : (create build kernel capacity flags).result ≠ .error .abort →
    ((create build kernel capacity flags).result.isOk → build = .debug → holds) →
      lifetime build kernel capacity flags holds =
        (given build kernel capacity flags).map .acquire ++
          (given build kernel capacity flags).reverse.map .release
  /-- if an error is returned, that has been done when it is; -/
  failed : ∀ e, (create build kernel capacity flags).result = .error (.returned e) →
    (ownAll build kernel capacity flags []).1 = lifetime build kernel capacity flags holds
  /-- if an object is returned, nothing has been given back yet, and the object owns it all. -/
  made : ∀ m, (create build kernel capacity flags).result = .ok m →
    (ownAll build kernel capacity flags []).1 =
      (given build kernel capacity flags).map .acquire ∧
    m.members = (given build kernel capacity flags).reverse
  /-- Where the process ends, nothing is given back at all; -/
  aborted : ((create build kernel capacity flags).result = .error .abort ∨
      (create build kernel capacity flags).result.isOk ∧ build = .debug ∧ holds = false) →
    lifetime build kernel capacity flags holds = (given build kernel capacity flags).map .acquire
  /-- in a release build that does not happen. -/
  release : build = .release → (create build kernel capacity flags).result ≠ .error .abort
  /-- Each mapping has a deleter with the length that it was made with. -/
  deleters : (create build kernel capacity flags).record.flatMap
      (Length.deleted kernel (kernel.ringFd capacity flags)) =
    (create build kernel capacity flags).record.flatMap
      (Length.mapping kernel (kernel.ringFd capacity flags))

/-- Where it stops, all is given back unless the process ends. -/
theorem acts_of_error {e : Stop CreateError}
    (h : ownAll build kernel capacity flags [] = (acts, .error e)) :
    (create build kernel capacity flags).result = .error e ∧
      acts = (given build kernel capacity flags).map .acquire ++
        if e.isAbort then [] else (given build kernel capacity flags).reverse.map .release := by
  have hagrees : Act.acquired (ownAll build kernel capacity flags []).1 =
      given build kernel capacity flags ∧ _ := agrees_ownAll []
  rw [h] at hagrees
  obtain ⟨hgot, hres⟩ := hagrees
  obtain ⟨new, rfl⟩ := tidy_ownAll.error _ _ _ h
  have hgiven : given build kernel capacity flags = new.reverse := by
    rw [← hgot, Act.acquired_append, Act.acquired_map_acquire]
    split
    · exact List.append_nil _
    · rw [Act.acquired_map_release, List.append_nil]
  rw [hgiven, List.reverse_reverse, List.append_nil]
  exact ⟨hres.symm, rfl⟩

/-- Where it returns an object, all is held by it. -/
theorem acts_of_ok (h : ownAll build kernel capacity flags [] = (acts, .ok (m, held'))) :
    (create build kernel capacity flags).result = .ok m ∧
      acts = (given build kernel capacity flags).map .acquire ∧
      m.members = (given build kernel capacity flags).reverse := by
  have hagrees : Act.acquired (ownAll build kernel capacity flags []).1 =
      given build kernel capacity flags ∧ _ := agrees_ownAll []
  rw [h] at hagrees
  obtain ⟨hgot, hres⟩ := hagrees
  have hmembers := held_ownAll h
  obtain ⟨new, rfl, rfl⟩ := tidy_ownAll.value _ _ _ _ h
  have hgiven : given build kernel capacity flags = new.reverse := by
    rw [← hgot, Act.acquired_map_acquire]
  rw [hgiven, List.reverse_reverse, ← hmembers, List.append_nil]
  exact ⟨hres.symm, rfl, rfl⟩

/-- **`create` leaks nothing and gives nothing back twice**, whatever the kernel does and wherever it
fails. -/
theorem cleans (build : Build) (kernel : Kernel) (capacity flags : U32) (holds : Bool) :
    Cleans build kernel capacity flags holds := by
  have hproper : Proper build kernel (kernel.ringFd capacity flags)
      (create build kernel capacity flags) := proper_create
  rcases hx : ownAll build kernel capacity flags [] with ⟨acts, e | ⟨m, held'⟩⟩
  · -- there is no object to be destroyed
    obtain ⟨hres, hacts⟩ := acts_of_error hx
    have hlife : lifetime build kernel capacity flags holds = acts := by
      unfold lifetime
      rw [hx]
      exact List.append_nil acts
    refine ⟨?_, ?_, ?_, ?_, hproper.goesOn, hproper.deleters⟩
    · intro hno _
      have hquits : e.isAbort = false := by
        cases e with
        | abort => exact absurd hres hno
        | returned e => rfl
      rw [hlife, hacts, hquits]
      rfl
    · intro e' _
      rw [hx, hlife]
    · intro m hm
      rw [hres] at hm
      cases hm
    · rintro (habort | ⟨hok, -⟩)
      · rw [hres] at habort
        cases habort
        rw [hlife, hacts]
        exact List.append_nil _
      · rw [hres] at hok
        cases hok
  · -- what the members hold is all that the kernel gave, the last one first
    obtain ⟨hres, hacts, hmembers⟩ := acts_of_ok hx
    have hlife : lifetime build kernel capacity flags holds =
        acts ++ if build = .debug ∧ holds = false then [] else m.members.map .release := by
      unfold lifetime
      rw [hx]
    refine ⟨?_, ?_, ?_, ?_, hproper.goesOn, hproper.deleters⟩
    · intro _ hholds
      have hpasses : ¬ (build = .debug ∧ holds = false) := by
        rintro ⟨hbuild, hno⟩
        rw [hno] at hholds
        exact absurd (hholds (hres ▸ rfl) hbuild) Bool.false_ne_true
      rw [hlife, hacts, if_neg hpasses, hmembers]
    · intro e he
      rw [hres] at he
      cases he
    · intro m' hm'
      rw [hres] at hm'
      cases hm'
      rw [hx]
      exact ⟨hacts, hmembers⟩
    · rintro (habort | ⟨-, hstops⟩)
      · rw [hres] at habort
        cases habort
      · rw [hlife, hacts, if_pos hstops, List.append_nil]

end

/-- The one mapping of `oneEntry` and its entries, all at the same address. -/
example : lifetime .release oneEntry 1 0 false =
    [.acquire (.fd 3), .acquire (.region 4096 160), .acquire (.region 4096 4096),
      .release (.region 4096 4096), .release (.region 4096 160), .release (.fd 3)] := by
  decide +kernel

end Shclog.EventedIo
