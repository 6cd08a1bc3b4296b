import Shclog.EventedIo.Create
import Shclog.Lib.Run

/-! # Buffers and files of a ring

`register_buffers` and `register_files`, and what `~EventedIo` takes back, in a debug build. The
kernel keeps for each ring what is registered with it: it registers nothing twice and takes back just
what is there, and a registration may fail for any other reason. -/

namespace Shclog.EventedIo

open Lib

/-! ## `io_uring_register` -/

inductive IoUringRegisterError where
  | accessDenied
  | registrationsAlreadyInPlace
  | badFd
  | badBuffers
  | badRequest
  | tooManyFiles
  | outOfMem
  | registrationFailed
  | unexpected
  deriving DecidableEq

/-- The `switch` of `io_uring_register`. -/
def IoUringRegisterError.ofErrno (e : Errno) : Stop IoUringRegisterError :=
  if e = Errno.inval ∨ e = Errno.fault ∨ e = Errno.opnotsupp ∨ e = Errno.noent then
    .returned .badRequest
  else if e = Errno.acces ∨ e = Errno.exist then .returned .accessDenied
  else if e = Errno.badf then .returned .badFd
  else if e = Errno.busy then .returned .registrationsAlreadyInPlace
  else if e = Errno.mfile then .returned .tooManyFiles
  else if e = Errno.nomem then .returned .outOfMem
  else if e = Errno.nxio then .returned .registrationFailed
  else debugEErrno .debug .unexpected

/-- What the system call returns, and the `errno` after it. -/
abbrev Answer := I64 × I32

/-- `io_uring_register`. -/
def ioUringRegister (answer : Answer) : Except (Stop IoUringRegisterError) U32 :=
  let e := eErrno answer.1 answer.2
  if e = Errno.success then .ok (answer.1.setWidth 32)
  else .error (IoUringRegisterError.ofErrno e)

/-! ## The kernel -/

/-- What can be registered. -/
inductive Kind where
  | buffers
  | files
  | ringFd
  deriving DecidableEq

/-- What is registered. -/
abbrev Registry := Kind → Bool

/-- The answers of the kernel to an `IORING_REGISTER_*`, and what is registered then. -/
inductive Registers (reg : Registry) (k : Kind) : Answer → Registry → Prop
  | done {rc : I64} {errno : I32} (hrc : 0 ≤ rc.toInt) (h : reg k = false) :
      Registers reg k (rc, errno) (Function.update reg k true)
  | refused {errno : I32} (hpos : 0 < errno.toInt) (hlow : errno.toInt < 4096) :
      Registers reg k (-1, errno) reg

/-- The answers of the kernel to an `IORING_UNREGISTER_*`, which fails just if there is nothing to be
taken back, and what is registered then. -/
inductive Unregisters (reg : Registry) (k : Kind) : Answer → Registry → Prop
  | done {rc : I64} {errno : I32} (hrc : 0 ≤ rc.toInt) (h : reg k = true) :
      Unregisters reg k (rc, errno) (Function.update reg k false)
  | refused {errno : I32} (hpos : 0 < errno.toInt) (hlow : errno.toInt < 4096)
      (h : reg k = false) : Unregisters reg k (-1, errno) reg

/-! ## The class -/

/-- The ring, and what the kernel keeps with it. -/
structure Ring where
  registeredRingFd : Option I32
  registry : Registry

/-- `register_files` and `register_buffers`, by the answer to what they register. Nothing comes back
where there are too many, or where the error is one that nobody expects. -/
def register (answer : Answer) (size : Usize) : Option Bool :=
  if 2 ^ 32 ≤ size.toNat then none
  else
    match ioUringRegister answer with
    | .ok _ => some true
    | .error (.returned _) => some false
    | .error .abort => none

/-- `register_ring_fd`, where the kernel writes `offset`: the new `registered_ring_fd`. -/
def registerRingFd (answer : Answer) (offset : U32) : Option (Option I32) :=
  match ioUringRegister answer with
  | .ok _ => if offset.toNat < 2 ^ 31 then some (some offset) else none
  | .error (.returned _) => some none
  | .error .abort => none

/-- Something is taken back, and `assert(r.has_value())`: what is left registered, unless that
aborts. -/
inductive TakesBack (reg : Registry) (k : Kind) : Option Registry → Prop
  | taken {answer : Answer} {reg' : Registry} {n : U32} (hkernel : Unregisters reg k answer reg')
      (h : ioUringRegister answer = .ok n) : TakesBack reg k (some reg')
  | aborted {answer : Answer} {reg' : Registry} {e : Stop IoUringRegisterError}
      (hkernel : Unregisters reg k answer reg') (h : ioUringRegister answer = .error e) :
      TakesBack reg k none

/-- One thing after another is taken back. -/
inductive TakesAllBack : Registry → List Kind → Option Registry → Prop
  | nil (reg : Registry) : TakesAllBack reg [] (some reg)
  | cons {reg reg' : Registry} {k : Kind} {ks : List Kind} {left : Option Registry}
      (h : TakesBack reg k (some reg')) (hrest : TakesAllBack reg' ks left) :
      TakesAllBack reg (k :: ks) left
  | aborted {reg : Registry} {k : Kind} {ks : List Kind} (h : TakesBack reg k none) :
      TakesAllBack reg (k :: ks) none

/-- `unregister_ring_fd`, as far as it takes something back. -/
def unregisterRingFd (q : Ring) : List Kind := if q.registeredRingFd.isSome then [.ringFd] else []

/-- `~EventedIo`: what is left registered, if it comes to its end. -/
def Destroys (q : Ring) (left : Option Registry) : Prop :=
  TakesAllBack q.registry (.buffers :: .files :: unregisterRingFd q) left

/-- The end of `create`. -/
inductive Made : Ring → Prop
  | intro {answer : Answer} {offset : U32} {fd : Option I32} {reg : Registry}
      (hkernel : Registers (fun _ => false) .ringFd answer reg)
      (h : registerRingFd answer offset = some fd) : Made ⟨fd, reg⟩

/-- A call that comes back, with what it was for and what it returned. -/
inductive Registering : Ring → Kind × Bool → Ring → Prop
  | call {q : Ring} {k : Kind} {answer : Answer} {size : Usize} {reg : Registry} {ok : Bool}
      (hk : k ≠ .ringFd) (hkernel : Registers q.registry k answer reg)
      (h : register answer size = some ok) : Registering q (k, ok) { q with registry := reg }

/-! ## What is registered -/

section

variable {reg reg' : Registry} {k : Kind} {answer : Answer} {q q' q₀ : Ring}
  {tr : List (Kind × Bool)}

theorem ioUringRegister_ok {rc : I64} {errno : I32} (h : 0 ≤ rc.toInt) :
    ioUringRegister (rc, errno) = .ok (rc.setWidth 32) := by
  simp only [ioUringRegister, eErrno_of_nonneg h, if_true]

theorem ioUringRegister_refused {errno : I32} (hpos : 0 < errno.toInt)
    (hlow : errno.toInt < 4096) :
    ioUringRegister (-1, errno) =
      .error (IoUringRegisterError.ofErrno (eErrno (-1) errno)) := by
  simp only [ioUringRegister, eErrno_ne_success hpos hlow, if_false]

/-- **A call says whether it registered anything.** -/
theorem registers_of_register {size : Usize} {ok : Bool} (hkernel : Registers reg k answer reg')
    (h : register answer size = some ok) :
    (ok = true ∧ reg k = false ∧ reg' = Function.update reg k true) ∨
      (ok = false ∧ reg' = reg) := by
  unfold register at h
  split at h
  · cases h
  · cases hkernel with
    | done hrc hfree =>
        rw [ioUringRegister_ok hrc] at h
        cases h
        exact .inl ⟨rfl, hfree, rfl⟩
    | refused hpos hlow =>
        rw [ioUringRegister_refused hpos hlow] at h
        refine .inr ⟨?_, rfl⟩
        split at h
        · next heq => cases heq
        · cases h
          rfl
        · cases h

/-- `registered_ring_fd` is set just if the ring is registered. -/
theorem Made.ringFd (h : Made q) :
    q.registry = fun k => decide (k = .ringFd) && q.registeredRingFd.isSome := by
  obtain ⟨hkernel, h⟩ := h
  unfold registerRingFd at h
  cases hkernel with
  | done hrc hfree =>
      rw [ioUringRegister_ok hrc] at h
      obtain ⟨-, heq⟩ := Option.ite_none_right_eq_some.mp h
      cases heq
      funext k
      cases k <;> rfl
  | refused hpos hlow =>
      rw [ioUringRegister_refused hpos hlow] at h
      split at h
      · next heq => cases heq
      · cases h
        funext k
        simp
      · cases h

/-- **Something is taken back** just if it is there. -/
theorem takesBack_iff {left : Option Registry} : TakesBack reg k left ↔
    left = if reg k then some (Function.update reg k false) else none := by
  constructor
  · rintro (⟨hkernel, h⟩ | ⟨hkernel, h⟩)
    · cases hkernel with
      | done hrc hthere => rw [if_pos hthere]
      | refused hpos hlow hnot =>
          rw [ioUringRegister_refused hpos hlow] at h
          cases h
    · cases hkernel with
      | done hrc hthere =>
          rw [ioUringRegister_ok hrc] at h
          cases h
      | refused hpos hlow hnot => simp [hnot]
  · rintro rfl
    cases hk : reg k with
    | true =>
        -- some answer of the kernel is one that takes it back
        have hrc : 0 ≤ (0 : I64).toInt := by decide
        have hdone : Unregisters reg k (0, 0) _ := .done hrc hk
        rw [if_pos rfl]
        exact .taken hdone (ioUringRegister_ok hrc)
    | false =>
        -- `ENXIO`, or any other error
        have hpos : 0 < (6 : I32).toInt := by decide
        have hlow : (6 : I32).toInt < 4096 := by decide
        have hrefused : Unregisters reg k (-1, 6) reg := .refused hpos hlow hk
        rw [if_neg Bool.false_ne_true]
        exact .aborted hrefused (ioUringRegister_refused hpos hlow)

theorem takesAllBack_nil_iff {left : Option Registry} :
    TakesAllBack reg [] left ↔ left = some reg := by
  constructor
  · intro h
    cases h
    rfl
  · rintro rfl
    exact .nil reg

/-- One of several things. -/
theorem takesAllBack_cons_iff {ks : List Kind} {left : Option Registry} :
    TakesAllBack reg (k :: ks) left ↔
      if reg k then TakesAllBack (Function.update reg k false) ks left else left = none := by
  constructor
  · intro h
    cases h with
    | @cons _ reg' _ _ _ h hrest =>
        have hsome := takesBack_iff.mp h
        split at hsome
        · next hthere =>
            cases hsome
            rwa [if_pos hthere]
        · cases hsome
    | aborted h =>
        have hnone := takesBack_iff.mp h
        split at hnone
        · cases hnone
        · next hnot => rw [if_neg hnot]
  · intro h
    split at h
    · next hthere => exact .cons (takesBack_iff.mpr (if_pos hthere).symm) h
    · next hnot =>
        subst h
        exact .aborted (takesBack_iff.mpr (if_neg hnot).symm)

end

/-! ## Runs -/

/-- What is registered with a ring after some calls. -/
structure Ring.Inv (tr : List (Kind × Bool)) (q : Ring) : Prop where
  ringFd : q.registry .ringFd = q.registeredRingFd.isSome
  registered : ∀ k, k ≠ .ringFd → tr.count (k, true) = (q.registry k).toNat

section

variable {q q' q₀ : Ring} {tr : List (Kind × Bool)} {e : Kind × Bool}

theorem Made.inv (h : Made q) : q.Inv [] := by
  refine ⟨?_, ?_⟩
  · rw [h.ringFd]
    simp
  · intro k hk
    rw [h.ringFd]
    simp [hk]

/-- **One call** registers one thing, or nothing. -/
theorem Registering.inv (hi : q.Inv tr) (h : Registering q e q') : q'.Inv (tr ++ [e]) := by
  obtain ⟨hk, hkernel, hcall⟩ := h
  next k answer size reg ok =>
  rcases registers_of_register hkernel hcall with ⟨rfl, hfree, rfl⟩ | ⟨rfl, rfl⟩
  · refine ⟨?_, ?_⟩
    · show Function.update q.registry k true .ringFd = _
      rw [Function.update_of_ne (Ne.symm hk), hi.ringFd]
    · intro k' hk'
      show _ = (Function.update q.registry k true k').toNat
      rw [List.count_append, hi.registered k' hk']
      by_cases heq : k' = k
      · subst heq
        simp [hfree]
      · simp [heq, Ne.symm heq]
  · refine ⟨hi.ringFd, ?_⟩
    intro k' hk'
    rw [List.count_append, hi.registered k' hk']
    simp

theorem run_registering (hm : Made q₀) (h : Run Registering q₀ tr q) : q.Inv tr := by
  refine h.invariant (I := fun tr q => q.Inv tr) hm.inv ?_
  intro tr s e s' _ hi hs
  exact hs.inv hi

/-- **The destructor** comes to its end if both are there, and leaves nothing then. -/
theorem destroys_iff (hi : q.Inv tr) {left : Option Registry} : Destroys q left ↔
    left = if q.registry .buffers && q.registry .files then some (fun _ => false) else none := by
  unfold Destroys unregisterRingFd
  rw [takesAllBack_cons_iff, takesAllBack_cons_iff, Function.update_of_ne (by decide)]
  cases hb : q.registry .buffers with
  | false => simp
  | true =>
      cases hf : q.registry .files with
      | false => simp
      | true =>
          -- only the descriptor of the ring is left, if that is registered
          simp only [if_true, Bool.and_self]
          cases hr : q.registeredRingFd.isSome with
          | false =>
              rw [if_neg Bool.false_ne_true, takesAllBack_nil_iff]
              have hempty : Function.update (Function.update q.registry .buffers false) .files
                  false = fun _ => false := by
                funext k
                cases k with
                | buffers => rfl
                | files => rfl
                | ringFd => exact hi.ringFd.trans hr
              rw [hempty]
          | true =>
              have hthere : Function.update (Function.update q.registry .buffers false) .files false
                  .ringFd = true := hi.ringFd.trans hr
              rw [if_pos rfl, takesAllBack_cons_iff, if_pos hthere, takesAllBack_nil_iff]
              have hempty : Function.update (Function.update (Function.update q.registry .buffers
                  false) .files false) .ringFd false = fun _ => false := by
                funext k
                cases k <;> rfl
              rw [hempty]

end

/-- What becomes of what is registered with a ring. -/
structure TearsDown (tr : List (Kind × Bool)) (q : Ring) : Prop where
  /-- neither buffers nor files are registered twice -/
  once : ∀ k, k ≠ .ringFd → tr.count (k, true) ≤ 1
  /-- the destructor comes to its end, or aborts, -/
  ends : ∃ left, Destroys q left
  /-- which it does unless both were registered, -/
  completes : ∀ left, Destroys q left → (left.isSome ↔ (.buffers, true) ∈ tr ∧ (.files, true) ∈ tr)
  /-- and it leaves nothing registered -/
  empties : ∀ reg, Destroys q (some reg) → ∀ k, reg k = false

/-- **`~EventedIo` comes to its end just if buffers and files were registered**, whatever else failed
before. -/
theorem tears_down {q₀ q : Ring} {tr : List (Kind × Bool)} (hm : Made q₀)
    (h : Run Registering q₀ tr q) : TearsDown tr q := by
  have hi := run_registering hm h
  have hmem : ∀ k, k ≠ .ringFd → ((k, true) ∈ tr ↔ q.registry k = true) := by
    intro k hk
    rw [← List.count_pos_iff, hi.registered k hk]
    cases q.registry k <;> decide
  refine ⟨?_, ⟨_, (destroys_iff hi).mpr rfl⟩, ?_, ?_⟩
  · intro k hk
    rw [hi.registered k hk]
    exact Bool.toNat_le _
  · intro left hleft
    rw [(destroys_iff hi).mp hleft, hmem .buffers (by decide), hmem .files (by decide)]
    cases q.registry .buffers <;> cases q.registry .files <;> simp
  · intro reg hreg k
    obtain ⟨-, heq⟩ := Option.ite_none_right_eq_some.mp ((destroys_iff hi).mp hreg).symm
    cases heq
    rfl

/-- Files are registered, if not the first time, and no buffers are: the destructor aborts. -/
theorem tears_down_files : ∃ q₀ q tr, Made q₀ ∧ Run Registering q₀ tr q ∧
    tr = [(.files, false), (.files, true)] ∧ TearsDown tr q := by
  let reg : Registry := Function.update (fun _ => false) .ringFd true
  have hm : Made ⟨some 0, reg⟩ :=
    .intro (.done (by decide) rfl) (show registerRingFd (1, 0) 0 = some (some 0) from rfl)
  have hrefused : Registering ⟨some 0, reg⟩ (.files, false) ⟨some 0, reg⟩ :=
    .call (by decide) (.refused (by decide) (by decide)) (show register (-1, 12) 1 = _ from rfl)
  have hdone : Registering ⟨some 0, reg⟩ (.files, true)
      ⟨some 0, Function.update reg .files true⟩ :=
    .call (by decide) (.done (by decide) rfl) (show register (0, 0) 1 = _ from rfl)
  have hrun := (Run.single hrefused).snoc hdone
  exact ⟨_, _, _, hm, hrun, rfl, tears_down hm hrun⟩

end Shclog.EventedIo
