import Shclog.EventedIo.Machine

/-! # The submission ring

What a push and the kernel keep true of `sq_head`, `sq_tail`, `sq_array` and `sqes`, whatever else
goes on. Every pending cell of `sq_array` names the slot at its own index, so the entry behind the
tail is the only one that a push may touch, and publishing it appends to what is pending. -/

namespace Shclog

open Lib

namespace Sq

variable {q : Sq} {k n d : Nat}

theorem cell_count (q : Sq) : q.cell q.count = q.tail &&& q.mask := by
  unfold cell count
  rw [add_toNat_sub]

theorem length_pending (q : Sq) : q.pending.length = q.count := length_ringFrom

theorem getElem?_pending (hd : d < q.count) :
    q.pending[d]? = some (q.sqes (q.array (q.cell d))) :=
  getElem?_ringFrom hd

/-- The pending entries are the same where the cells and the slots they name are. -/
theorem pending_congr {array : U32 → U32} {sqes : U32 → Sqe}
    (h : ∀ d < q.count, sqes (array (q.cell d)) = q.sqes (q.array (q.cell d))) :
    ({ q with array, sqes } : Sq).pending = q.pending :=
  ringFrom_congr h

/-- The kernel gives the first `n` entries back. -/
theorem count_release (hn : n ≤ q.count) :
    ({ q with head := q.head + BitVec.ofNat 32 n } : Sq).count = q.count - n :=
  toNat_sub_front hn

theorem pending_release (hn : n ≤ q.count) :
    ({ q with head := q.head + BitVec.ofNat 32 n } : Sq).pending = q.pending.drop n := by
  unfold pending
  rw [count_release hn, drop_ringFrom hn]

theorem cell_release :
    ({ q with head := q.head + BitVec.ofNat 32 n } : Sq).cell d = q.cell (n + d) := by
  unfold cell
  rw [BitVec.add_assoc, ← BitVec.ofNat_add]

/-- A push moves the tail. -/
theorem count_publish (h : q.count + 1 < 2 ^ 32) :
    ({ q with tail := q.tail + 1 } : Sq).count = q.count + 1 :=
  toNat_sub_back h

theorem pending_publish (h : q.count + 1 < 2 ^ 32) :
    ({ q with tail := q.tail + 1 } : Sq).pending =
      q.pending ++ [q.sqes (q.array (q.tail &&& q.mask))] := by
  unfold pending
  rw [count_publish h, ringFrom_succ, ← cell_count]
  rfl

end Sq

namespace EventedIo

variable {q : EventedIo} {s s' : State} {e : Event} {tr : List Event} {k : Nat}

/-- What the kernel promises of a submission ring it has set up: `ring_mask + 1` is a power of two
no larger than 2 ^ 31, and head and tail start equal, wherever that is. -/
structure SqSetUp (q : EventedIo) : Prop where
  entries : ∃ k ≤ 31, q.sqMask.toNat + 1 = 2 ^ k
  start : q.sqHead = q.sqTail

/-! ## The invariant -/

/-- How far a push has got with the entry behind the tail. -/
def Pushing.Holds (q : Sq) : Pushing → Prop
  | .tail _ => True
  | .head _ t => t = q.tail
  | .fill r slot todo =>
    slot = q.tail ∧ q.count < q.entries ∧ (q.sqes (q.tail &&& q.mask)).fill todo = r.sqe
  | .publish r slot =>
    slot = q.tail ∧ q.count < q.entries ∧
      q.array (q.tail &&& q.mask) = q.tail &&& q.mask ∧ q.sqes (q.tail &&& q.mask) = r.sqe
  | .flags => True
  | .enter _ => True

/-- What holds of a ring of `2 ^ k` entries, the push that may be in progress and the number of
entries that the kernel has read and not given back. -/
structure SqInv (k : Nat) (q : Sq) (push : Option Pushing) (taken : Nat) : Prop where
  mask : q.mask.toNat + 1 = 2 ^ k
  small : k ≤ 31
  count_le : q.count ≤ 2 ^ k
  taken_le : taken ≤ q.count
  own : ∀ d < q.count, q.array (q.cell d) = q.cell d
  push : ∀ pc, push = some pc → pc.Holds q

/-- The entries that the kernel has yet to read. -/
def State.unread (s : State) : List Sqe := s.io.sq.pending.drop s.taken

section Rules

variable {q : Sq} {push : Option Pushing} {taken n d : Nat} {r : Request} {slot : U32}
  {pc : Pushing} {st : Store} {todo : List Store}

theorem SqInv.room (hi : SqInv k q push taken) (h : q.count < q.entries) : q.count < 2 ^ k :=
  hi.mask ▸ h

theorem SqInv.count_succ_lt (hi : SqInv k q push taken) (h : q.count < q.entries) :
    q.count + 1 < 2 ^ 32 := by
  have := hi.room h
  have : 2 ^ k ≤ 2 ^ 31 := Nat.pow_le_pow_right (by omega) hi.small
  omega

/-- The cell behind the tail is not that of a pending entry, as long as there is one. -/
theorem SqInv.cell_ne (hi : SqInv k q push taken) (h : q.count < q.entries) (hd : d < q.count) :
    q.cell d ≠ q.tail &&& q.mask := by
  rw [← q.cell_count]
  exact and_mask_ne hi.mask hd (hi.room h)

theorem SqInv.setPush (hi : SqInv k q push taken) {push' : Option Pushing}
    (h : ∀ pc, push' = some pc → pc.Holds q) : SqInv k q push' taken :=
  ⟨hi.mask, hi.small, hi.count_le, hi.taken_le, hi.own, h⟩

/-- The test of `next_sq_slot` finds out whether a slot is free. -/
theorem SqInv.noSqSlot_iff (hi : SqInv k q push taken) :
    noSqSlot q.tail q.head q.mask = true ↔ q.count = q.entries := by
  have hfits : q.mask.toNat + 1 < 2 ^ 32 := by
    have : 2 ^ k ≤ 2 ^ 31 := Nat.pow_le_pow_right (by omega) hi.small
    rw [hi.mask]
    omega
  have hsucc : (q.mask + 1).toNat = 2 ^ k := by
    rw [← hi.mask]
    exact (BitVec.toNat_add _ _).trans (Nat.mod_eq_of_lt hfits)
  have hle := hi.count_le
  unfold noSqSlot
  rw [decide_eq_true_iff, ge_iff_le, BitVec.le_def, hsucc]
  show 2 ^ k ≤ q.count ↔ q.count = q.mask.toNat + 1
  rw [hi.mask]
  omega

/-- `sqe->field = v`. -/
theorem SqInv.store (hi : SqInv k q (some (.fill r slot (st :: todo))) taken) :
    let index := slot &&& q.mask
    let q' := { q with sqes := Function.update q.sqes index (st.apply (q.sqes index)) }
    SqInv k q' (some (.fill r slot todo)) taken ∧ q'.pending = q.pending := by
  intro index q'
  obtain ⟨rfl, hroom, hfill⟩ := hi.push _ rfl
  refine ⟨⟨hi.mask, hi.small, hi.count_le, hi.taken_le, hi.own, ?_⟩, ?_⟩
  · intro pc hpc
    cases hpc
    refine ⟨rfl, hroom, ?_⟩
    show (Function.update q.sqes _ _ _).fill todo = r.sqe
    rw [Function.update_self]
    exact hfill
  · apply Sq.pending_congr
    intro d hd
    rw [hi.own d hd]
    exact Function.update_of_ne (hi.cell_ne hroom hd) _ _

/-- `sq_array[index] = index`. -/
theorem SqInv.storeArray (hi : SqInv k q (some (.fill r slot [])) taken) :
    let index := slot &&& q.mask
    let q' := { q with array := Function.update q.array index index }
    SqInv k q' (some (.publish r slot)) taken ∧ q'.pending = q.pending := by
  intro index q'
  obtain ⟨rfl, hroom, hfill⟩ := hi.push _ rfl
  have hother : ∀ d < q.count, q'.array (q.cell d) = q.array (q.cell d) := by
    intro d hd
    exact Function.update_of_ne (hi.cell_ne hroom hd) _ _
  refine ⟨⟨hi.mask, hi.small, hi.count_le, hi.taken_le, ?_, ?_⟩, ?_⟩
  · intro d hd
    exact (hother d hd).trans (hi.own d hd)
  · intro pc hpc
    cases hpc
    exact ⟨rfl, hroom, Function.update_self .., hfill⟩
  · apply Sq.pending_congr
    intro d hd
    exact congrArg q.sqes (hother d hd)

/-- `sq_tail->store(slot + 1)`: the entry joins those that are pending. -/
theorem SqInv.publish (hi : SqInv k q (some (.publish r slot)) taken) {push' : Option Pushing}
    (h : ∀ q pc, push' = some pc → pc.Holds q) :
    let q' := { q with tail := slot + 1 }
    SqInv k q' push' taken ∧ q'.count = q.count + 1 ∧ q'.pending = q.pending ++ [r.sqe] := by
  intro q'
  obtain ⟨rfl, hroom, harray, hsqe⟩ := hi.push _ rfl
  have hlt := hi.count_succ_lt hroom
  have hcount : q'.count = q.count + 1 := Sq.count_publish hlt
  refine ⟨⟨hi.mask, hi.small, ?_, ?_, ?_, h q'⟩, hcount, ?_⟩
  · rw [hcount]
    exact hi.room hroom
  · rw [hcount]
    exact Nat.le_succ_of_le hi.taken_le
  · intro d hd
    rw [hcount] at hd
    show q.array (q.cell d) = q.cell d
    rcases Nat.lt_succ_iff_lt_or_eq.mp hd with hold | rfl
    · exact hi.own d hold
    · rw [q.cell_count]
      exact harray
  · rw [Sq.pending_publish hlt, harray, hsqe]

/-- The kernel moves `sq_head` past entries it has read. -/
theorem SqInv.release (hi : SqInv k q push taken) (hn : n ≤ taken) :
    let q' := { q with head := q.head + BitVec.ofNat 32 n }
    SqInv k q' push (taken - n) ∧ q'.count + n = q.count ∧
      q'.pending.drop (taken - n) = q.pending.drop taken := by
  intro q'
  have hle := hi.taken_le
  have hnc : n ≤ q.count := Nat.le_trans hn hle
  have hcount : q'.count = q.count - n := Sq.count_release hnc
  have hfewer : q.count < q.entries → q'.count < q.entries := by
    rw [hcount]
    omega
  refine ⟨⟨hi.mask, hi.small, ?_, ?_, ?_, ?_⟩, ?_, ?_⟩
  · have := hi.count_le
    omega
  · omega
  · intro d hd
    rw [Sq.cell_release]
    exact hi.own (n + d) (by omega)
  · intro pc hpc
    have hold := hi.push pc hpc
    -- what a push knows of the ring only gets better as the head moves
    cases pc with
    | tail => trivial
    | head => exact hold
    | fill => exact ⟨hold.1, hfewer hold.2.1, hold.2.2⟩
    | publish => exact ⟨hold.1, hfewer hold.2.1, hold.2.2⟩
    | flags => trivial
    | enter => trivial
  · omega
  · rw [Sq.pending_release hnc, List.drop_drop, Nat.add_sub_cancel' hn]

end Rules

/-! ## Steps -/

/-- A pop does not touch the submission ring. -/
theorem popStep_frame (s : State) (ok : Bool) (pc : Popping) :
    (popStep s ok pc).2.io.sq = s.io.sq ∧ (popStep s ok pc).2.push = s.push ∧
      (popStep s ok pc).2.taken = s.taken ∧ (popStep s ok pc).1.published? = none ∧
      (popStep s ok pc).1.consumed? = none ∧ (popStep s ok pc).1.released? = none := by
  cases pc with
  | tail k head =>
      by_cases h : head = s.io.cqTail <;> simp [popStep, h, Event.published?, Event.consumed?,
        Event.released?]
  | _ => exact ⟨rfl, rfl, rfl, rfl, rfl, rfl⟩

/-- What a step does to the submission ring: what it takes from the front of the entries to be
read, and what it puts at their back. -/
structure SqMoves (k : Nat) (s : State) (e : Event) (s' : State) : Prop where
  inv : SqInv k s'.io.sq s'.push s'.taken
  flow : e.consumed?.toList ++ s'.unread = s.unread ++ (e.published?.map Request.sqe).toList
  count : e.released?.getD 0 + s'.io.sq.count = s.io.sq.count + e.published?.toList.length

/-- A step that neither reads, publishes nor gives back an entry. -/
theorem SqMoves.of_pending (hinv : SqInv k s'.io.sq s'.push s'.taken)
    (hpending : s'.io.sq.pending = s.io.sq.pending) (htaken : s'.taken = s.taken)
    (hpub : e.published? = none) (hcon : e.consumed? = none) (hrel : e.released? = none) :
    SqMoves k s e s' := by
  refine ⟨hinv, ?_, ?_⟩
  · rw [hpub, hcon]
    show s'.io.sq.pending.drop s'.taken = s.unread ++ []
    rw [hpending, htaken, List.append_nil]
    rfl
  · have := congrArg List.length hpending
    rw [Sq.length_pending, Sq.length_pending] at this
    rw [hpub, hrel, this]
    exact Nat.zero_add _

/-- **A step of a push.** -/
theorem pushStep_sq (hi : SqInv k s.io.sq s.push s.taken) {pc : Pushing} (ok : Bool)
    (hp : s.push = some pc) : SqMoves k s (pushStep s ok pc).1 (pushStep s ok pc).2 := by
  rw [hp] at hi
  have hreturn : SqInv k s.io.sq none s.taken := hi.setPush (by simp)
  cases pc with
  | tail r =>
      refine .of_pending (hi.setPush ?_) rfl rfl rfl rfl rfl
      intro pc hpc
      cases hpc
      rfl
  | head r tail =>
      obtain rfl := hi.push _ rfl
      simp only [pushStep]
      split
      · exact .of_pending hreturn rfl rfl rfl rfl rfl
      · next hfull =>
          refine .of_pending (hi.setPush ?_) rfl rfl rfl rfl rfl
          intro pc hpc
          cases hpc
          have hne : s.io.sq.count ≠ s.io.sq.entries := fun h => hfull (hi.noSqSlot_iff.mpr h)
          have hle : s.io.sq.count ≤ s.io.sq.entries := hi.count_le.trans_eq hi.mask.symm
          exact ⟨rfl, by omega, r.fill_stores _⟩
  | fill r slot todo =>
      cases todo with
      | nil => exact .of_pending hi.storeArray.1 hi.storeArray.2 rfl rfl rfl rfl
      | cons st todo => exact .of_pending hi.store.1 hi.store.2 rfl rfl rfl rfl
  | publish r slot =>
      have hnext : ∀ q pc, (if s.io.isSqPoll then some Pushing.flags
          else some (Pushing.enter s.io.submitEnter)) = some pc → pc.Holds q := by
        intro q pc hpc
        split at hpc <;> cases hpc <;> trivial
      rw [← apply_ite] at hnext
      obtain ⟨hinv, hcount, hpending⟩ := hi.publish hnext
      have hle := hi.taken_le
      rw [← Sq.length_pending] at hle
      refine ⟨hinv, ?_, hcount ▸ Nat.zero_add _⟩
      show (_ : Sq).pending.drop s.taken = s.io.sq.pending.drop s.taken ++ [r.sqe]
      rw [← List.drop_append_of_le_length hle, ← hpending]
      rfl
  | flags =>
      refine .of_pending (hi.setPush ?_) rfl rfl rfl rfl rfl
      intro pc hpc
      cases hpc
      trivial
  | enter args => exact .of_pending hreturn rfl rfl rfl rfl rfl

/-- **Any step.** -/
theorem step_sq (hi : SqInv k s.io.sq s.push s.taken) (h : Step s e s') : SqMoves k s e s' := by
  cases h with
  | pushCall r h =>
      refine .of_pending (hi.setPush ?_) rfl rfl rfl rfl rfl
      intro pc hpc
      cases hpc
      trivial
  | push ok hp => exact pushStep_sq hi ok hp
  | popCall k h => exact .of_pending hi rfl rfl rfl rfl rfl
  | @pop pc ok hp =>
      obtain ⟨hsq, hpush, htaken, hpub, hcon, hrel⟩ := popStep_frame s ok pc
      refine .of_pending ?_ (congrArg Sq.pending hsq) htaken hpub hcon hrel
      rw [hsq, hpush, htaken]
      exact hi
  | consume hlt =>
      have hlen : s.taken < s.io.sq.pending.length := by
        rw [Sq.length_pending]
        exact hlt
      have hget := Sq.getElem?_pending hlt
      rw [List.getElem?_eq_getElem hlen, Option.some_inj] at hget
      refine ⟨⟨hi.mask, hi.small, hi.count_le, hlt, hi.own, hi.push⟩, ?_, Nat.zero_add _⟩
      show _ :: s.io.sq.pending.drop (s.taken + 1) = s.io.sq.pending.drop s.taken ++ []
      rw [List.append_nil, List.drop_eq_getElem_cons hlen, hget]
      rfl
  | @release n hn =>
      obtain ⟨hinv, hcount, hdrop⟩ := hi.release hn
      refine ⟨hinv, ?_, ?_⟩
      · exact hdrop.trans (List.append_nil _).symm
      · exact (Nat.add_comm _ _).trans hcount
  | post res h => exact .of_pending hi rfl rfl rfl rfl rfl
  | commit h => exact .of_pending hi rfl rfl rfl rfl rfl
  | flag flags => exact .of_pending hi rfl rfl rfl rfl rfl

/-- A step that is not one of the pushing thread's. -/
structure PushAside (s : State) (e : Event) (s' : State) : Prop where
  push : s'.push = s.push
  tail : s'.io.sqTail = s.io.sqTail
  mask : s'.io.sqMask = s.io.sqMask
  called : e.pushCalled? = none
  result : e.pushResult? = none
  head : e.headRead? = none
  written : e.written? = none
  published : e.published? = none

theorem popStep_aside (s : State) (ok : Bool) (pc : Popping) :
    PushAside s (popStep s ok pc).1 (popStep s ok pc).2 := by
  cases pc with
  | tail k head =>
      by_cases h : head = s.io.cqTail <;> simp only [popStep, h] <;> constructor <;> rfl
  | _ => constructor <;> rfl

/-- What a step is to the pushing thread. -/
theorem step_push (h : Step s e s') :
    (∃ r, s.push = none ∧ e = .pushCalled r ∧ s' = { s with push := some (.tail r) }) ∨
    (∃ pc ok, s.push = some pc ∧ e = (pushStep s ok pc).1 ∧ s' = (pushStep s ok pc).2) ∨
    PushAside s e s' := by
  cases h with
  | pushCall r h => exact .inl ⟨r, h, rfl, rfl⟩
  | @push pc ok hp => exact .inr (.inl ⟨pc, ok, hp, rfl, rfl⟩)
  | popCall k h => exact .inr (.inr ⟨rfl, rfl, rfl, rfl, rfl, rfl, rfl, rfl⟩)
  | @pop pc ok hp => exact .inr (.inr (popStep_aside s ok pc))
  | consume h => exact .inr (.inr ⟨rfl, rfl, rfl, rfl, rfl, rfl, rfl, rfl⟩)
  | release h => exact .inr (.inr ⟨rfl, rfl, rfl, rfl, rfl, rfl, rfl, rfl⟩)
  | post res h => exact .inr (.inr ⟨rfl, rfl, rfl, rfl, rfl, rfl, rfl, rfl⟩)
  | commit h => exact .inr (.inr ⟨rfl, rfl, rfl, rfl, rfl, rfl, rfl, rfl⟩)
  | flag flags => exact .inr (.inr ⟨rfl, rfl, rfl, rfl, rfl, rfl, rfl, rfl⟩)

/-- What a step is while the pushing thread stands at `pc`. -/
theorem step_inside {pc : Pushing} (hp : s.push = some pc) (h : Step s e s') :
    (∃ ok, e = (pushStep s ok pc).1 ∧ s' = (pushStep s ok pc).2) ∨ PushAside s e s' := by
  rcases step_push h with ⟨r, hnone, -⟩ | ⟨pc', ok, hp', he, hs⟩ | haside
  · rw [hp] at hnone
    cases hnone
  · rw [hp, Option.some_inj] at hp'
    subst hp'
    exact .inl ⟨ok, he, hs⟩
  · exact .inr haside

/-- `sq_head` is read by `next_sq_slot`, which decides there and then. -/
theorem step_headRead {head : U32} (h : Step s e s') (he : e.headRead? = some head) :
    ∃ r tail, s.push = some (.head r tail) ∧ head = s.io.sqHead ∧
      (e.pushResult? = some .queueIsFull ↔ noSqSlot tail s.io.sqHead s.io.sqMask = true) := by
  rcases step_push h with ⟨r, -, rfl, -⟩ | ⟨pc, ok, hp, rfl, -⟩ | haside
  · cases he
  · cases pc with
    | head r tail =>
        refine ⟨r, tail, hp, ?_, ?_⟩ <;> simp only [pushStep] at he ⊢ <;> split at he <;> cases he
        · rfl
        · rfl
        · next hfull => simp [hfull, Event.pushResult?]
        · next hfull => simp [hfull, Event.pushResult?]
    | fill r slot todo => cases todo <;> cases he
    | _ => cases he
  · rw [haside.head] at he
    cases he

/-- A slot is written between the decision and the publication. -/
theorem step_written {index : U32} (h : Step s e s') (he : e.written? = some index) :
    ∃ r slot todo, s.push = some (.fill r slot todo) ∧ index = slot &&& s.io.sqMask := by
  rcases step_push h with ⟨r, -, rfl, -⟩ | ⟨pc, ok, hp, rfl, -⟩ | haside
  · cases he
  · cases pc with
    | fill r slot todo =>
        refine ⟨r, slot, todo, hp, ?_⟩
        cases todo <;> cases he <;> rfl
    | head r tail =>
        simp only [pushStep] at he
        split at he <;> cases he
    | _ => cases he
  · rw [haside.written] at he
    cases he

/-! ## Runs -/

theorem SqSetUp.inv (hq : q.SqSetUp) : ∃ k, SqInv k q.sq none 0 := by
  obtain ⟨k, hk, hmask⟩ := hq.entries
  have hcount : q.sq.count = 0 := eq_iff_toNat_sub.mp hq.start
  refine ⟨k, hmask, hk, ?_, ?_, ?_, ?_⟩
  · rw [hcount]
    exact Nat.zero_le _
  · exact Nat.zero_le _
  · intro d hd
    rw [hcount] at hd
    cases hd
  · intro pc hpc
    cases hpc

theorem run_sqInv (hi : SqInv k s.io.sq s.push s.taken) (h : Run Step s tr s') :
    SqInv k s'.io.sq s'.push s'.taken :=
  h.stable (I := fun s => SqInv k s.io.sq s.push s.taken) hi fun _ _ _ hi hs => (step_sq hi hs).inv

/-- What the kernel read in a run and what it has yet to read is what it had yet to read and what
was published, request by request. -/
theorem run_sqFlow (hi : SqInv k s.io.sq s.push s.taken) (h : Run Step s tr s') :
    consumed tr ++ s'.unread = s.unread ++ (published tr).map Request.sqe := by
  have hput : (published tr).map Request.sqe =
      tr.filterMap fun e => e.published?.map Request.sqe := List.map_filterMap ..
  rw [hput]
  exact Run.flow (I := fun s => SqInv k s.io.sq s.push s.taken) hi
    (fun _ _ _ hi hs => (step_sq hi hs).inv) (fun _ _ _ hi hs => (step_sq hi hs).flow) h

/-- The distance between the counters is the true number of entries between them. -/
theorem run_sqCount (hi : SqInv k s.io.sq s.push s.taken) (h : Run Step s tr s') :
    released tr + s'.io.sq.count = s.io.sq.count + (published tr).length := by
  refine (h.invariant (I := fun tr s' => SqInv k s'.io.sq s'.push s'.taken ∧
    released tr + s'.io.sq.count = s.io.sq.count + (published tr).length) ⟨hi, ?_⟩ ?_).2
  · exact Nat.zero_add _
  · intro tr m e m' _ ⟨hm, hsum⟩ he
    obtain ⟨hm', -, hcount⟩ := step_sq hm he
    refine ⟨hm', ?_⟩
    rw [released_snoc, published_snoc, List.length_append]
    omega

/-- What the submission ring `q` keeps after the run `tr` to `s`. -/
structure Kept (q : EventedIo) (tr : List Event) (s : State) : Prop where
  /-- From head to tail there are never more than all entries. -/
  window : (s.io.sqTail - s.io.sqHead).toNat ≤ q.sqMask.toNat + 1
  /-- That distance is what was published and not given back. -/
  count : released tr + (s.io.sqTail - s.io.sqHead).toNat = (published tr).length
  /-- What the kernel read, followed by what the ring holds for it, is what was published: each
  request once, in order, with the fields its push filled in. -/
  order : consumed tr ++ s.unread = (published tr).map Request.sqe
  /-- A push is refused exactly if no slot is free as it reads `sq_head`. -/
  refused : ∀ e s' head, Step s e s' → e.headRead? = some head → head = s.io.sqHead ∧
    (e.pushResult? = some .queueIsFull ↔ (s.io.sqTail - head).toNat = q.sqMask.toNat + 1)
  /-- A push writes no slot and no cell of a pending entry. -/
  free : ∀ e s' index, Step s e s' → e.written? = some index →
    ∀ d < (s.io.sqTail - s.io.sqHead).toNat,
      s.io.sq.cell d ≠ index ∧ s.io.sqArray (s.io.sq.cell d) ≠ index

/-- **The submission ring never overwrites a pending request**, however the kernel's reading and
advancing falls among the steps of the pushes and however often the counters wrap. -/
theorem never_overwrites (hq : q.SqSetUp) (h : Run Step (idle q) tr s) : Kept q tr s := by
  obtain ⟨k, h₀⟩ := hq.inv
  have hi : SqInv k s.io.sq s.push s.taken := run_sqInv h₀ h
  have hentries : s.io.sq.entries = q.sqMask.toNat + 1 := hi.mask.trans h₀.mask.symm
  have hempty : (idle q).io.sq.count = 0 := eq_iff_toNat_sub.mp hq.start
  refine ⟨?_, ?_, ?_, ?_, ?_⟩
  · show s.io.sq.count ≤ _
    rw [← hentries]
    exact hi.count_le.trans_eq hi.mask.symm
  · have := run_sqCount h₀ h
    rwa [hempty, Nat.zero_add] at this
  · have hnil : (idle q).unread = [] := by
      rw [State.unread, List.drop_eq_nil_iff, Sq.length_pending, hempty]
      exact Nat.zero_le _
    have := run_sqFlow h₀ h
    rwa [hnil, List.nil_append] at this
  · intro e s' head he hhead
    obtain ⟨r, tail, hp, rfl, hfull⟩ := step_headRead he hhead
    refine ⟨rfl, ?_⟩
    obtain rfl := hi.push _ hp
    rw [hfull, ← hentries]
    exact hi.noSqSlot_iff
  · intro e s' index he hindex d hd
    obtain ⟨r, slot, todo, hp, rfl⟩ := step_written he hindex
    obtain ⟨rfl, hroom, -⟩ := hi.push _ hp
    have hne : s.io.sq.cell d ≠ s.io.sq.tail &&& s.io.sq.mask := hi.cell_ne hroom hd
    refine ⟨hne, ?_⟩
    show s.io.sq.array _ ≠ _
    rw [hi.own d hd]
    exact hne

set_option maxRecDepth 2000 in
/-- Two entries, and counters about to wrap: a third push is refused, and served once the kernel
has read the first entry and given it back. -/
theorem never_overwrites_wrap :
    ∃ tr s, Run Step (idle (fresh 1 0xFFFFFFFF false)) tr s ∧ s.io.sqTail = 1 ∧
      tr.filterMap Event.pushResult? = [.success, .success, .queueIsFull] ∧
      published tr = [writeFrom 0, writeFrom 16] ∧ (consumed tr).length = 1 ∧
      s.push = some (.fill (writeFrom 32) 1 (writeFrom 32).stores) ∧
      Kept (fresh 1 0xFFFFFFFF false) tr s := by
  have h := Run.of_exec step_of_move
    (show exec move (idle (fresh 1 0xFFFFFFFF false))
      (.pushCall (writeFrom 0) :: List.replicate 13 (.push true) ++
        .pushCall (writeFrom 16) :: List.replicate 13 (.push true) ++
        [.pushCall (writeFrom 32), .push true, .push true, .consume, .release 1,
        .pushCall (writeFrom 32), .push true, .push true]) = some _ from rfl)
  exact ⟨_, _, h, rfl, rfl, rfl, rfl, rfl, never_overwrites ⟨⟨1, by decide, rfl⟩, rfl⟩ h⟩

end EventedIo

end Shclog
