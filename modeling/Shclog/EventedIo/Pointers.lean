import Shclog.EventedIo.Raw

/-! # Pointers

What `EventedIo` keeps in shared memory, as objects behind the pointers of `Raw`. Where they lie apart
and each of them is in its place, every operation goes well and does what the machine of `EventedIo`
says, so that the two make the same runs. -/

namespace Shclog.EventedIo

open Lib

/-! ## Objects -/

/-- What there is behind a pointer. -/
inductive Object where
  | sqHead
  | sqTail
  | sqFlags
  | array (index : U32)
  | sqe (index : U32)
  | cqHead
  | cqTail
  | res (index : U32)

namespace Object

def addr (m : Mapped) : Object → U64
  | sqHead => m.sqHead
  | sqTail => m.sqTail
  | sqFlags => m.sqFlags
  | array index => m.arrayAt index
  | sqe index => m.sqeAt index
  | cqHead => m.cqHead
  | cqTail => m.cqTail
  | res index => m.resAt index

def size : Object → Nat
  | sqe _ => 64
  | _ => 4

/-- The indices that are used. -/
def Valid (m : Mapped) : Object → Prop
  | array index => index ≤ m.sqMask
  | sqe index => index ≤ m.sqMask
  | res index => index ≤ m.cqMask
  | _ => True

def bytes (q : EventedIo) : Object → List U8
  | sqHead => leBytes 4 q.sqHead.toNat
  | sqTail => leBytes 4 q.sqTail.toNat
  | sqFlags => leBytes 4 q.sqFlags.toNat
  | array index => leBytes 4 (q.sqArray index).toNat
  | sqe index => (q.sqes index).bytes
  | cqHead => leBytes 4 q.cqHead.toNat
  | cqTail => leBytes 4 q.cqTail.toNat
  | res index => leBytes 4 (q.cqes index).toNat

theorem length_bytes (q : EventedIo) (o : Object) : (o.bytes q).length = o.size := by
  cases o <;> simp [bytes, size]

end Object

/-- The object without what it points to. -/
def bare (q : EventedIo) : EventedIo where
  ringFd := q.ringFd
  sqHead := 0
  sqTail := 0
  sqFlags := 0
  sqArray := fun _ => 0
  sqMask := q.sqMask
  sqes := fun _ => {}
  cqHead := 0
  cqTail := 0
  cqMask := q.cqMask
  cqes := fun _ => 0
  isSqPoll := q.isSqPoll
  registeredRingFd := q.registeredRingFd

/-- The objects do not overlap. -/
def Mapped.Disjoint (m : Mapped) : Prop :=
  Apart (Object.Valid m) (fun o => (o.addr m).toNat) Object.size

/-- Through the pointers, the memory shows `q`. -/
structure Shows (m : Mapped) (f : Memory U8) (q : EventedIo) : Prop where
  bare : q.bare = m.object
  placed : Placed (Object.Valid m) (fun o => (o.addr m).toNat) f (Object.bytes q)
  indices : ∀ i ≤ m.sqMask, q.sqArray i ≤ m.sqMask

section

variable {m : Mapped} {q q' : EventedIo} {o : Object} {v : U32}

theorem and_mask_le (i mask : U32) : i &&& mask ≤ mask := by
  rw [BitVec.le_def, BitVec.toNat_and]
  exact Nat.and_le_right

/-! ## Loads -/

theorem does_load32 (hvalid : o.Valid m) (hv : o.bytes q = leBytes 4 v.toNat) :
    Does (Shows m) (load32 (o.addr m)) q v q := by
  intro f hf
  have hload := (hf.placed o hvalid).load
  rw [hv, length_leBytes] at hload
  refine ⟨f, ?_, hf⟩
  show (f.load (o.addr m).toNat 4 >>= fun l => some (BitVec.ofNat 32 (ofLeBytes l), f)) = some (v, f)
  rw [hload]
  show some (BitVec.ofNat 32 (ofLeBytes (leBytes 4 v.toNat)), f) = some (v, f)
  rw [ofLeBytes_leBytes v.isLt, BitVec.ofNat_toNat, BitVec.setWidth_eq]

theorem does_loadSqe {index : U32} (hvalid : index ≤ m.sqMask) :
    Does (Shows m) (loadSqe (m.sqeAt index)) q (q.sqes index) q := by
  intro f hf
  have hload := (hf.placed (.sqe index) hvalid).load
  refine ⟨f, ?_, hf⟩
  show (f.load (m.sqeAt index).toNat 64 >>= fun l => some (Sqe.ofBytes l, f)) = _
  have hbytes : f.load (m.sqeAt index).toNat 64 = some (q.sqes index).bytes := hload
  rw [hbytes]
  show some (Sqe.ofBytes (q.sqes index).bytes, f) = _
  rw [Sqe.ofBytes_bytes]

/-! ## Stores -/

/-- Nothing but this object is changed. -/
structure Changes (o : Object) (q q' : EventedIo) : Prop where
  bare : q'.bare = q.bare
  others : ∀ o', o' ≠ o → o'.bytes q' = o'.bytes q

theorem Shows.store {f : Memory U8} {n : Nat} {l : List U8} (hf : Shows m f q)
    (hdisjoint : m.Disjoint) (hvalid : o.Valid m) (hin : n + l.length ≤ o.size)
    (hself : o.bytes q' = splice (o.bytes q) n l) (hchanges : Changes o q q')
    (hindices : ∀ i ≤ m.sqMask, q'.sqArray i ≤ m.sqMask) :
    ∃ g, f.store ((o.addr m).toNat + n) l = some g ∧ Shows m g q' := by
  obtain ⟨g, hstore, hplaced⟩ :=
    hf.placed.store hdisjoint (Object.length_bytes q) hvalid hin hself hchanges.others
  exact ⟨g, hstore, hchanges.bare.trans hf.bare, hplaced, hindices⟩

theorem does_store32 (hdisjoint : m.Disjoint) (hvalid : o.Valid m) (hsize : o.size = 4)
    (hself : o.bytes q' = leBytes 4 v.toNat) (hchanges : Changes o q q')
    (hindices : (∀ i ≤ m.sqMask, q.sqArray i ≤ m.sqMask) →
      ∀ i ≤ m.sqMask, q'.sqArray i ≤ m.sqMask) :
    Does (Shows m) (store32 (o.addr m) v) q () q' := by
  intro f hf
  have hlength : (leBytes 4 v.toNat).length = (o.bytes q).length := by
    rw [length_leBytes, Object.length_bytes, hsize]
  have hin : 0 + (leBytes 4 v.toNat).length ≤ o.size := by
    rw [length_leBytes, hsize]
  obtain ⟨g, hstore, hg⟩ := hf.store hdisjoint hvalid hin (hself.trans (splice_all hlength).symm)
    hchanges (hindices hf.indices)
  refine ⟨g, ?_, hg⟩
  show (f.store (o.addr m).toNat (leBytes 4 v.toNat) >>= fun g => some ((), g)) = some ((), g)
  rw [show f.store (o.addr m).toNat (leBytes 4 v.toNat) = some g from hstore]
  rfl

theorem does_storeSqHead (hdisjoint : m.Disjoint) (n : Nat) :
    Does (Shows m) (store32 m.sqHead (q.sqHead + BitVec.ofNat 32 n)) q () (q.releaseSq n) := by
  refine does_store32 (o := .sqHead) hdisjoint trivial rfl rfl ⟨rfl, ?_⟩ id
  intro o ho
  cases o <;> first | rfl | contradiction

theorem does_storeSqTail (hdisjoint : m.Disjoint) (t : U32) :
    Does (Shows m) (store32 m.sqTail t) q () (q.storeSqTail t) := by
  refine does_store32 (o := .sqTail) hdisjoint trivial rfl rfl ⟨rfl, ?_⟩ id
  intro o ho
  cases o <;> first | rfl | contradiction

theorem does_storeSqFlags (hdisjoint : m.Disjoint) (flags : U32) :
    Does (Shows m) (store32 m.sqFlags flags) q () { q with sqFlags := flags } := by
  refine does_store32 (o := .sqFlags) hdisjoint trivial rfl rfl ⟨rfl, ?_⟩ id
  intro o ho
  cases o <;> first | rfl | contradiction

theorem does_storeCqHead (hdisjoint : m.Disjoint) (h : U32) :
    Does (Shows m) (store32 m.cqHead h) q () (q.storeCqHead h) := by
  refine does_store32 (o := .cqHead) hdisjoint trivial rfl rfl ⟨rfl, ?_⟩ id
  intro o ho
  cases o <;> first | rfl | contradiction

theorem does_storeCqTail (hdisjoint : m.Disjoint) (n : Nat) :
    Does (Shows m) (store32 m.cqTail (q.cqTail + BitVec.ofNat 32 n)) q () (q.commitCq n) := by
  refine does_store32 (o := .cqTail) hdisjoint trivial rfl rfl ⟨rfl, ?_⟩ id
  intro o ho
  cases o <;> first | rfl | contradiction

theorem does_storeArray (hdisjoint : m.Disjoint) {index : U32} (hvalid : index ≤ m.sqMask) :
    Does (Shows m) (store32 (m.arrayAt index) index) q () (q.storeArray index) := by
  refine does_store32 (o := .array index) hdisjoint hvalid rfl ?_ ⟨rfl, ?_⟩ ?_
  · simp [Object.bytes, storeArray]
  · intro o ho
    cases o with
    | array i =>
        have hi : i ≠ index := fun h => ho (congrArg _ h)
        simp [Object.bytes, storeArray, hi]
    | _ => rfl
  · intro h i hi
    by_cases hindex : i = index
    · simpa [storeArray, hindex] using hvalid
    · simpa [storeArray, hindex] using h i hi

theorem does_storeRes (hdisjoint : m.Disjoint) {index : U32} (res : I32)
    (hvalid : index ≤ m.cqMask) :
    Does (Shows m) (store32 (m.resAt index) res) q () (q.storeCqe index res) := by
  refine does_store32 (o := .res index) hdisjoint hvalid rfl ?_ ⟨rfl, ?_⟩ id
  · simp [Object.bytes, storeCqe]
  · intro o ho
    cases o with
    | res i =>
        have hi : i ≠ index := fun h => ho (congrArg _ h)
        simp [Object.bytes, storeCqe, hi]
    | _ => rfl

theorem does_assign (hdisjoint : m.Disjoint) {index : U32} (hvalid : index ≤ m.sqMask)
    (st : Store) : Does (Shows m) (assign (m.sqeAt index) st) q () (q.storeSqe index st) := by
  intro f hf
  have hself : (Object.sqe index).bytes (q.storeSqe index st)
      = splice ((Object.sqe index).bytes q) st.place.1 st.place.2 := by
    simp [Object.bytes, storeSqe, Store.splice_place]
  have hothers : ∀ o : Object, o ≠ .sqe index →
      o.bytes (q.storeSqe index st) = o.bytes q := by
    intro o ho
    cases o with
    | sqe i =>
        have hi : i ≠ index := fun h => ho (congrArg _ h)
        simp [Object.bytes, storeSqe, hi]
    | _ => rfl
  obtain ⟨g, hstore, hg⟩ :=
    hf.store (o := .sqe index) hdisjoint hvalid st.place_le hself ⟨rfl, hothers⟩ hf.indices
  refine ⟨g, ?_, hg⟩
  show (f.store ((m.sqeAt index).toNat + st.place.1) st.place.2 >>= fun g => some ((), g))
    = some ((), g)
  rw [show f.store ((m.sqeAt index).toNat + st.place.1) st.place.2 = some g from hstore]
  rfl

end

/-! ## The threads -/

section

variable {m : Mapped} {s : State}

/-- **A push** does through the pointers what it does to the object. -/
theorem does_pushStep (hdisjoint : m.Disjoint) (hbare : s.io.bare = m.object) (ok : Bool)
    (pc : Pushing) :
    Does (Shows m) (m.pushStep ok pc) s.io ((pushStep s ok pc).1, (pushStep s ok pc).2.push)
      (pushStep s ok pc).2.io := by
  have hmask : m.sqMask = s.io.sqMask := (congrArg sqMask hbare).symm
  have hpoll : m.isSqPoll = s.io.isSqPoll := (congrArg isSqPoll hbare).symm
  have hsubmit : m.object.submitEnter = s.io.submitEnter := (congrArg submitEnter hbare).symm
  have hwake : m.object.wakeEnter = s.io.wakeEnter := (congrArg wakeEnter hbare).symm
  cases pc with
  | tail r => exact (does_load32 (o := .sqTail) trivial rfl).bind .pure
  | head r tail =>
      refine (does_load32 (o := .sqHead) trivial rfl).bind ?_
      rw [pushStep, hmask]
      split
      · exact .pure
      · exact .pure
  | fill r slot todo =>
      have hindex : slot &&& s.io.sqMask ≤ m.sqMask := hmask ▸ and_mask_le ..
      cases todo with
      | nil =>
          rw [Mapped.pushStep, hmask]
          exact (does_storeArray hdisjoint hindex).bind .pure
      | cons st todo =>
          rw [Mapped.pushStep, hmask]
          exact (does_assign hdisjoint hindex st).bind .pure
  | publish r slot =>
      rw [Mapped.pushStep, hpoll, hsubmit]
      exact (does_storeSqTail hdisjoint _).bind .pure
  | flags =>
      rw [Mapped.pushStep, hsubmit, hwake]
      exact (does_load32 (o := .sqFlags) trivial rfl).bind .pure
  | enter args => exact .pure

/-- **A pop**, likewise. -/
theorem does_popStep (hdisjoint : m.Disjoint) (hbare : s.io.bare = m.object) (ok : Bool)
    (pc : Popping) :
    Does (Shows m) (m.popStep ok pc) s.io ((popStep s ok pc).1, (popStep s ok pc).2.pop)
      (popStep s ok pc).2.io := by
  have hmask : m.cqMask = s.io.cqMask := (congrArg cqMask hbare).symm
  have hwait : m.object.waitEnter = s.io.waitEnter := (congrArg waitEnter hbare).symm
  cases pc with
  | enter k =>
      rw [Mapped.popStep, hwait]
      exact .pure
  | head k => exact (does_load32 (o := .cqHead) trivial rfl).bind .pure
  | tail k head =>
      refine (does_load32 (o := .cqTail) trivial rfl).bind ?_
      rw [popStep]
      split
      · exact .pure
      · exact .pure
  | read k head =>
      rw [Mapped.popStep, hmask]
      exact (does_load32 (o := .res _) (hmask ▸ and_mask_le ..) rfl).bind .pure
  | release k head rc => exact (does_storeCqHead hdisjoint _).bind .pure

/-! ## The kernel -/

/-- What the kernel is left with after a move, if it can make it. -/
def kernelResult (s : State) (mv : Move) : Option (Event × Nat × Nat) :=
  (move s mv).map fun r => (r.1, r.2.taken, r.2.posted)

/-- What the object is left as. -/
def ioAfter (s : State) (mv : Move) : EventedIo := ((move s mv).map (·.2.io)).getD s.io

/-- A move of the kernel's. -/
def Move.isKernel : Move → Bool
  | .pushCall _ | .push _ | .popCall _ | .pop _ => false
  | _ => true

/-- **The kernel** finds in the memory what it finds in the object. -/
theorem does_kernelStep (hdisjoint : m.Disjoint) (hbare : s.io.bare = m.object)
    (hindices : ∀ i ≤ m.sqMask, s.io.sqArray i ≤ m.sqMask) {mv : Move} (hmv : mv.isKernel) :
    Does (Shows m) (Raw.kernelStep m s.taken s.posted mv) s.io (kernelResult s mv)
      (ioAfter s mv) := by
  have hsq : m.sqMask = s.io.sqMask := (congrArg sqMask hbare).symm
  have hcq : m.cqMask = s.io.cqMask := (congrArg cqMask hbare).symm
  unfold kernelResult ioAfter
  cases mv with
  | consume =>
      refine (does_load32 (o := .sqHead) trivial rfl).bind
        ((does_load32 (o := .sqTail) trivial rfl).bind ?_)
      have hcount : s.io.sq.count = (s.io.sqTail - s.io.sqHead).toNat := rfl
      rw [move, hcount]
      by_cases h : s.taken < (s.io.sqTail - s.io.sqHead).toNat
      · rw [if_pos h, if_pos h]
        have hcell : (s.io.sqHead + BitVec.ofNat 32 s.taken) &&& m.sqMask ≤ m.sqMask :=
          and_mask_le ..
        refine (does_load32 (o := .array _) hcell rfl).bind
          ((does_loadSqe (hindices _ hcell)).bind ?_)
        rw [hsq]
        exact .pure
      · rw [if_neg h, if_neg h]
        exact .pure
  | release n =>
      rw [Raw.kernelStep, move]
      by_cases h : n ≤ s.taken
      · rw [if_pos h, if_pos h]
        exact (does_load32 (o := .sqHead) trivial rfl).bind
          ((does_storeSqHead hdisjoint n).bind .pure)
      · rw [if_neg h, if_neg h]
        exact .pure
  | post res =>
      refine (does_load32 (o := .cqHead) trivial rfl).bind
        ((does_load32 (o := .cqTail) trivial rfl).bind ?_)
      have hcount : s.io.cq.count = (s.io.cqTail - s.io.cqHead).toNat := rfl
      have hentries : s.io.cq.entries = s.io.cqMask.toNat + 1 := rfl
      rw [move, hcq, hcount, hentries]
      dsimp only
      by_cases h : (s.io.cqTail - s.io.cqHead).toNat + s.posted < s.io.cqMask.toNat + 1
      · rw [if_pos h, if_pos h]
        exact (does_storeRes hdisjoint res (hcq ▸ and_mask_le ..)).bind .pure
      · rw [if_neg h, if_neg h]
        exact .pure
  | commit n =>
      rw [Raw.kernelStep, move]
      by_cases h : n ≤ s.posted
      · rw [if_pos h, if_pos h]
        exact (does_load32 (o := .cqTail) trivial rfl).bind
          ((does_storeCqTail hdisjoint n).bind .pure)
      · rw [if_neg h, if_neg h]
        exact .pure
  | flag flags => exact (does_storeSqFlags hdisjoint flags).bind .pure
  | pushCall | push | popCall | pop => cases hmv

/-! ## The same runs -/

/-- A state with a memory in place of the object. -/
def Raw.of (f : Memory U8) (s : State) : Raw := ⟨f, s.push, s.pop, s.taken, s.posted⟩

/-- It is the state, but for the memory, which shows the object. -/
def Raw.On (m : Mapped) (S : Raw) (s : State) : Prop := ∃ f, S = .of f s ∧ Shows m f s.io

theorem pushStep_eq (s : State) (ok : Bool) (pc : Pushing) : (pushStep s ok pc).2 =
    { s with io := (pushStep s ok pc).2.io, push := (pushStep s ok pc).2.push } := by
  cases pc with
  | head r tail =>
      rw [pushStep]
      split <;> rfl
  | fill r slot todo => cases todo <;> rfl
  | _ => rfl

theorem popStep_eq (s : State) (ok : Bool) (pc : Popping) : (popStep s ok pc).2 =
    { s with io := (popStep s ok pc).2.io, pop := (popStep s ok pc).2.pop } := by
  cases pc with
  | tail k head =>
      rw [popStep]
      split <;> rfl
  | _ => rfl

/-- The threads are not the kernel's business. -/
theorem threads_of_kernel {mv : Move} (hmv : mv.isKernel) {r : Event × State}
    (h : move s mv = some r) : r.2.push = s.push ∧ r.2.pop = s.pop := by
  cases mv with
  | pushCall | push | popCall | pop => cases hmv
  | flag flags =>
      cases h
      exact ⟨rfl, rfl⟩
  | _ =>
      obtain ⟨-, he⟩ := Option.ite_none_right_eq_some.mp h
      cases he
      exact ⟨rfl, rfl⟩

/-- A move has the same event and leads to a memory that shows the object. -/
def Same (m : Mapped) (x : Event × Raw) (y : Event × State) : Prop :=
  x.1 = y.1 ∧ Raw.On m x.2 y.2

variable {f : Memory U8}

theorem move_kernel (hdisjoint : m.Disjoint) (hf : Shows m f s.io) {mv : Move}
    (hmv : mv.isKernel) :
    ∃ o, (Raw.of f s).move m mv = some o ∧ Option.Rel (Same m) o (move s mv) := by
  obtain ⟨g, he, hg⟩ := does_kernelStep hdisjoint hf.bare hf.indices hmv f hf
  have hmove : (Raw.of f s).move m mv
      = some ((kernelResult s mv).map fun r =>
        (r.1, ({ Raw.of f s with memory := g, taken := r.2.1, posted := r.2.2 } : Raw))) := by
    have hdo : (Raw.of f s).move m mv
        = (Raw.kernelStep m s.taken s.posted mv f).bind fun p => some (p.1.map fun r =>
          (r.1, ({ Raw.of f s with memory := p.2, taken := r.2.1, posted := r.2.2 } : Raw))) := by
      cases mv with
      | pushCall | push | popCall | pop => cases hmv
      | _ => rfl
    rw [hdo, he]
    rfl
  refine ⟨_, hmove, ?_⟩
  unfold kernelResult
  unfold ioAfter at hg
  cases hr : move s mv with
  | none => exact .none
  | some r =>
      rw [hr] at hg
      obtain ⟨hpush, hpop⟩ := threads_of_kernel hmv hr
      refine .some ⟨rfl, g, ?_, hg⟩
      simp [Raw.of, hpush, hpop]

/-- **One move**: nothing goes wrong, and the two move alike. -/
theorem move_of (hdisjoint : m.Disjoint) (hf : Shows m f s.io) (mv : Move) :
    ∃ o, (Raw.of f s).move m mv = some o ∧ Option.Rel (Same m) o (move s mv) := by
  cases mv with
  | pushCall r =>
      rw [move, Raw.move]
      dsimp only [Raw.of]
      cases s.push with
      | none => exact ⟨_, rfl, .some ⟨rfl, f, rfl, hf⟩⟩
      | some pc => exact ⟨_, rfl, .none⟩
  | push ok =>
      rw [move, Raw.move]
      dsimp only [Raw.of]
      cases s.push with
      | none => exact ⟨_, rfl, .none⟩
      | some pc =>
          obtain ⟨g, he, hg⟩ := does_pushStep hdisjoint hf.bare ok pc f hf
          dsimp only
          rw [he]
          refine ⟨_, rfl, .some ⟨rfl, g, ?_, hg⟩⟩
          rw [pushStep_eq]
          rfl
  | popCall k =>
      rw [move, Raw.move]
      dsimp only [Raw.of]
      cases s.pop with
      | none => exact ⟨_, rfl, .some ⟨rfl, f, rfl, hf⟩⟩
      | some pc => exact ⟨_, rfl, .none⟩
  | pop ok =>
      rw [move, Raw.move]
      dsimp only [Raw.of]
      cases s.pop with
      | none => exact ⟨_, rfl, .none⟩
      | some pc =>
          obtain ⟨g, he, hg⟩ := does_popStep hdisjoint hf.bare ok pc f hf
          dsimp only
          rw [he]
          refine ⟨_, rfl, .some ⟨rfl, g, ?_, hg⟩⟩
          rw [popStep_eq]
          rfl
  | _ => exact move_kernel hdisjoint hf rfl

variable {S S' : Raw} {s' : State} {e : Event} {tr : List Event}

theorem step_of_raw (hdisjoint : m.Disjoint) (hS : S.On m s) (h : S.Step m e S') :
    ∃ s', Step s e s' ∧ S'.On m s' := by
  obtain ⟨f, rfl, hf⟩ := hS
  obtain ⟨mv, hmv⟩ := h
  obtain ⟨o, ho, hrel⟩ := move_of hdisjoint hf mv
  rw [hmv, Option.some_inj] at ho
  subst ho
  cases hr : move s mv with
  | none =>
      rw [hr] at hrel
      cases hrel
  | some r =>
      rw [hr] at hrel
      obtain ⟨he, hS'⟩ : Same m (e, S') r := by
        cases hrel
        assumption
      obtain rfl : e = r.1 := he
      exact ⟨r.2, step_of_move s mv r.1 r.2 hr, hS'⟩

theorem raw_of_step (hdisjoint : m.Disjoint) (hS : S.On m s) (h : Step s e s') :
    ∃ S', S.Step m e S' ∧ S'.On m s' := by
  obtain ⟨f, rfl, hf⟩ := hS
  obtain ⟨mv, hmv⟩ := move_of_step h
  obtain ⟨o, ho, hrel⟩ := move_of hdisjoint hf mv
  rw [hmv] at hrel
  cases hrel with
  | @some x _ hsame =>
      obtain ⟨hx, hS'⟩ := hsame
      obtain rfl : x.1 = e := hx
      exact ⟨x.2, ⟨mv, ho⟩, hS'⟩

theorem Raw.On.idle {q : EventedIo} (hf : Shows m f q) : (Raw.idle f).On m (EventedIo.idle q) :=
  ⟨f, rfl, hf⟩

/-- **A run through the pointers** is one of the machine, and is on it all the time. -/
theorem run_of_raw (hdisjoint : m.Disjoint) {q : EventedIo} (hf : Shows m f q)
    (h : Lib.Run (Raw.Step m) (Raw.idle f) tr S) :
    ∃ s, Lib.Run Step (idle q) tr s ∧ S.On m s := by
  have hmatched : ∀ S s e S', S.On m s → Raw.Step m S e S' →
      Lib.Run.Matches (Raw.On m) Step s S' (some e) := by
    intro S s e S' hS hstep
    exact step_of_raw hdisjoint hS hstep
  have hrun := h.simulate (Raw.On.idle hf) hmatched
  rwa [List.filterMap_some] at hrun

theorem raw_of_run (hdisjoint : m.Disjoint) {q : EventedIo} (hf : Shows m f q)
    (h : Lib.Run Step (idle q) tr s) :
    ∃ S, Lib.Run (Raw.Step m) (Raw.idle f) tr S ∧ S.On m s := by
  have hmatched : ∀ s S e s', S.On m s → Step s e s' →
      Lib.Run.Matches (fun s S => S.On m s) (Raw.Step m) S s' (some e) := by
    intro s S e s' hS hstep
    exact raw_of_step hdisjoint hS hstep
  have hrun := h.simulate (R := fun s (S : Raw) => S.On m s) (Raw.On.idle hf) hmatched
  rwa [List.filterMap_some] at hrun

/-- **Nothing goes wrong** in the memory. -/
theorem move_ne_none (hdisjoint : m.Disjoint) (hS : S.On m s) (mv : Move) :
    S.move m mv ≠ none := by
  obtain ⟨f, rfl, hf⟩ := hS
  obtain ⟨o, ho, -⟩ := move_of hdisjoint hf mv
  rw [ho]
  exact Option.some_ne_none o

end

end Shclog.EventedIo
