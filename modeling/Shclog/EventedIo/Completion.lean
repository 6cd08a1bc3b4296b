import Shclog.EventedIo.Machine

/-! # The completion ring

The other ring: the kernel writes completions behind `cq_tail` and makes them visible afterwards, a
pop reads the one at `cq_head` and gives its cell back afterwards. A cell that a pop has looked into
stays as it is until the pop has moved `cq_head`, since the kernel keeps to the cells in front. -/

namespace Shclog

open Lib

namespace Cq

variable {q : Cq} {n d : Nat}

/-- The first `n` completions behind the head. -/
def contents (q : Cq) (n : Nat) : List I32 := ringFrom q.mask q.cqes q.head n

theorem contents_succ (q : Cq) (n : Nat) :
    q.contents (n + 1) =
      q.cqes (q.head &&& q.mask) :: ({ q with head := q.head + 1 } : Cq).contents n := rfl

end Cq

namespace EventedIo

variable {q : EventedIo} {s s' : State} {e : Event} {tr : List Event} {c : Nat}

/-- What the kernel promises of a completion ring it has set up. -/
structure CqSetUp (q : EventedIo) : Prop where
  entries : ∃ c ≤ 31, q.cqMask.toNat + 1 = 2 ^ c
  start : q.cqHead = q.cqTail

/-! ## The invariant -/

/-- What a pop knows of the completion at the head. -/
def Popping.Holds (q : Cq) : Popping → Prop
  | .enter _ => True
  | .head _ => True
  | .tail _ h => h = q.head
  | .read _ h => h = q.head ∧ 0 < q.count
  | .release _ h rc => h = q.head ∧ 0 < q.count ∧ rc = q.cqes (q.head &&& q.mask)

/-- What holds of a ring of `2 ^ c` completions, the pop that may be in progress and the number of
completions that the kernel has written and not made visible. -/
structure CqInv (c : Nat) (q : Cq) (pop : Option Popping) (posted : Nat) : Prop where
  mask : q.mask.toNat + 1 = 2 ^ c
  small : c ≤ 31
  room : q.count + posted ≤ 2 ^ c
  pop : ∀ pc, pop = some pc → pc.Holds q

/-- The completions that the kernel has written and no pop has taken. -/
def State.undelivered (s : State) : List I32 := s.io.cq.contents (s.io.cq.count + s.posted)

section Rules

variable {q : Cq} {pop : Option Popping} {posted n : Nat} {k : Pop} {head : U32} {rc res : I32}

theorem CqInv.setPop (hi : CqInv c q pop posted) {pop' : Option Popping}
    (h : ∀ pc, pop' = some pc → pc.Holds q) : CqInv c q pop' posted :=
  ⟨hi.mask, hi.small, hi.room, h⟩

theorem CqInv.lt_word (hi : CqInv c q pop posted) : q.count + posted < 2 ^ 32 := by
  have := hi.room
  have : 2 ^ c ≤ 2 ^ 31 := Nat.pow_le_pow_right (by omega) hi.small
  omega

/-- `cq_head->store(head + 1)`: the oldest completion is taken. -/
theorem CqInv.take (hi : CqInv c q (some (.release k head rc)) posted) :
    let q' := { q with head := head + 1 }
    CqInv c q' none posted ∧
      rc :: q'.contents (q'.count + posted) = q.contents (q.count + posted) := by
  intro q'
  obtain ⟨rfl, hpos, rfl⟩ := hi.pop _ rfl
  have hcount : q'.count = q.count - 1 := toNat_sub_front hpos
  refine ⟨⟨hi.mask, hi.small, ?_, by simp⟩, ?_⟩
  · have := hi.room
    omega
  · have hsucc : q.count + posted = (q'.count + posted) + 1 := by omega
    rw [hsucc, Cq.contents_succ]

/-- The kernel writes a completion behind all others. -/
theorem CqInv.post (hi : CqInv c q pop posted) (h : q.count + posted < q.entries) :
    let q' := { q with cqes := Function.update q.cqes (q.cell (q.count + posted)) res }
    CqInv c q' pop (posted + 1) ∧
      q'.contents (q'.count + (posted + 1)) = q.contents (q.count + posted) ++ [res] := by
  intro q'
  have hroom : q.count + posted < 2 ^ c := hi.mask ▸ h
  refine ⟨⟨hi.mask, hi.small, hroom, ?_⟩, ringFrom_push hi.mask hroom⟩
  intro pc hpc
  have hold := hi.pop pc hpc
  cases pc with
  | release k head rc =>
      obtain ⟨hhead, hpos, hrc⟩ := hold
      have hne : q.head &&& q.mask ≠ q.cell (q.count + posted) := by
        have := and_mask_ne (c := q.head) hi.mask (Nat.lt_of_lt_of_le hpos (Nat.le_add_right _ _))
          hroom
        simpa [Cq.cell] using this
      exact ⟨hhead, hpos, hrc.trans (Function.update_of_ne hne _ _).symm⟩
  | _ => exact hold

/-- The kernel makes completions visible. -/
theorem CqInv.commit (hi : CqInv c q pop posted) (hn : n ≤ posted) :
    let q' := { q with tail := q.tail + BitVec.ofNat 32 n }
    CqInv c q' pop (posted - n) ∧
      q'.contents (q'.count + (posted - n)) = q.contents (q.count + posted) := by
  intro q'
  have hlt := hi.lt_word
  have hcount : q'.count = q.count + n := toNat_sub_back (by show q.count + n < _; omega)
  have hsum : q'.count + (posted - n) = q.count + posted := by omega
  refine ⟨⟨hi.mask, hi.small, hsum ▸ hi.room, ?_⟩, congrArg q.contents hsum⟩
  intro pc hpc
  have hold := hi.pop pc hpc
  have hmore : 0 < q.count → 0 < q'.count := by omega
  cases pc with
  | read k head => exact ⟨hold.1, hmore hold.2⟩
  | release k head rc => exact ⟨hold.1, hmore hold.2.1, hold.2.2⟩
  | _ => exact hold

end Rules

/-! ## Steps -/

/-- What a step does to the completion ring: what it takes from the front of the completions that
are there, and what it puts at their back. -/
structure CqMoves (c : Nat) (s : State) (e : Event) (s' : State) : Prop where
  inv : CqInv c s'.io.cq s'.pop s'.posted
  flow : e.taken?.toList ++ s'.undelivered = s.undelivered ++ e.posted?.toList

/-- A step that neither takes nor posts a completion. -/
theorem CqMoves.of_eq (hinv : CqInv c s'.io.cq s'.pop s'.posted)
    (hcontents : s'.undelivered = s.undelivered) (htaken : e.taken? = none)
    (hposted : e.posted? = none) : CqMoves c s e s' := by
  refine ⟨hinv, ?_⟩
  rw [htaken, hposted, hcontents]
  exact (List.append_nil _).symm

/-- A step that is not one of the popping thread's. -/
structure PopAside (s : State) (e : Event) (s' : State) : Prop where
  pop : s'.pop = s.pop
  head : s'.io.cqHead = s.io.cqHead
  called : e.popCalled? = none
  result : e.popResult? = none
  taken : e.taken? = none

/-- A push does not touch the completion ring. -/
theorem pushStep_frame (s : State) (ok : Bool) (pc : Pushing) :
    (pushStep s ok pc).2.io.cq = s.io.cq ∧ (pushStep s ok pc).2.posted = s.posted ∧
      (pushStep s ok pc).1.posted? = none ∧ PopAside s (pushStep s ok pc).1 (pushStep s ok pc).2 := by
  cases pc with
  | head r tail =>
      simp only [pushStep]
      split <;> exact ⟨rfl, rfl, rfl, rfl, rfl, rfl, rfl, rfl⟩
  | fill r slot todo => cases todo <;> exact ⟨rfl, rfl, rfl, rfl, rfl, rfl, rfl, rfl⟩
  | _ => exact ⟨rfl, rfl, rfl, rfl, rfl, rfl, rfl, rfl⟩

/-- **A step of a pop.** -/
theorem popStep_cq (hi : CqInv c s.io.cq s.pop s.posted) {pc : Popping} (ok : Bool)
    (hp : s.pop = some pc) : CqMoves c s (popStep s ok pc).1 (popStep s ok pc).2 := by
  rw [hp] at hi
  have hreturn : CqInv c s.io.cq none s.posted := hi.setPop (by simp)
  cases pc with
  | enter k =>
      refine .of_eq (hi.setPop ?_) rfl (by cases ok <;> rfl) rfl
      intro pc hpc
      cases ok <;> cases hpc
      trivial
  | head k =>
      refine .of_eq (hi.setPop ?_) rfl rfl rfl
      intro pc hpc
      cases hpc
      rfl
  | tail k head =>
      obtain rfl := hi.pop _ rfl
      simp only [popStep]
      split
      · exact .of_eq hreturn rfl rfl rfl
      · next hne =>
          refine .of_eq (hi.setPop ?_) rfl rfl rfl
          intro pc hpc
          cases hpc
          exact ⟨rfl, Nat.pos_of_ne_zero fun hz => hne (eq_iff_toNat_sub.mpr hz)⟩
  | read k head =>
      obtain ⟨rfl, hpos⟩ := hi.pop _ rfl
      refine .of_eq (hi.setPop ?_) rfl rfl rfl
      intro pc hpc
      cases hpc
      exact ⟨rfl, hpos, rfl⟩
  | release k head rc => exact ⟨hi.take.1, hi.take.2.trans (List.append_nil _).symm⟩

/-- **Any step.** -/
theorem step_cq (hi : CqInv c s.io.cq s.pop s.posted) (h : Step s e s') : CqMoves c s e s' := by
  cases h with
  | pushCall r h => exact .of_eq hi rfl rfl rfl
  | @push pc ok hp =>
      obtain ⟨hcq, hposted, hpost, haside⟩ := pushStep_frame s ok pc
      refine .of_eq ?_ ?_ haside.taken hpost
      · rw [hcq, haside.pop, hposted]
        exact hi
      · rw [State.undelivered, hcq, hposted]
        rfl
  | popCall k h =>
      refine .of_eq (hi.setPop ?_) rfl rfl rfl
      intro pc hpc
      cases hpc
      trivial
  | pop ok hp => exact popStep_cq hi ok hp
  | consume h => exact .of_eq hi rfl rfl rfl
  | release h => exact .of_eq hi rfl rfl rfl
  | post res h => exact ⟨(hi.post h).1, (hi.post h).2⟩
  | commit h => exact .of_eq (hi.commit h).1 (hi.commit h).2 rfl rfl
  | flag flags => exact .of_eq hi rfl rfl rfl

/-- What a step is to the popping thread. -/
theorem step_pop (h : Step s e s') :
    (∃ k, s.pop = none ∧ e = .popCalled k ∧ s' = { s with pop := some (.enter k) }) ∨
    (∃ pc ok, s.pop = some pc ∧ e = (popStep s ok pc).1 ∧ s' = (popStep s ok pc).2) ∨
    PopAside s e s' := by
  cases h with
  | pushCall r h => exact .inr (.inr ⟨rfl, rfl, rfl, rfl, rfl⟩)
  | @push pc ok hp => exact .inr (.inr (pushStep_frame s ok pc).2.2.2)
  | popCall k h => exact .inl ⟨k, h, rfl, rfl⟩
  | @pop pc ok hp => exact .inr (.inl ⟨pc, ok, hp, rfl, rfl⟩)
  | consume h => exact .inr (.inr ⟨rfl, rfl, rfl, rfl, rfl⟩)
  | release h => exact .inr (.inr ⟨rfl, rfl, rfl, rfl, rfl⟩)
  | post res h => exact .inr (.inr ⟨rfl, rfl, rfl, rfl, rfl⟩)
  | commit h => exact .inr (.inr ⟨rfl, rfl, rfl, rfl, rfl⟩)
  | flag flags => exact .inr (.inr ⟨rfl, rfl, rfl, rfl, rfl⟩)

/-- What a step is while the popping thread stands at `pc`. -/
theorem step_insidePop {pc : Popping} (hp : s.pop = some pc) (h : Step s e s') :
    (∃ ok, e = (popStep s ok pc).1 ∧ s' = (popStep s ok pc).2) ∨ PopAside s e s' := by
  rcases step_pop h with ⟨k, hnone, -⟩ | ⟨pc', ok, hp', he, hs⟩ | haside
  · rw [hp] at hnone
    cases hnone
  · rw [hp, Option.some_inj] at hp'
    subst hp'
    exact .inl ⟨ok, he, hs⟩
  · exact .inr haside

/-! ## Runs -/

theorem CqSetUp.inv (hq : q.CqSetUp) : ∃ c, CqInv c q.cq none 0 := by
  obtain ⟨c, hc, hmask⟩ := hq.entries
  have hcount : q.cq.count = 0 := eq_iff_toNat_sub.mp hq.start
  refine ⟨c, hmask, hc, ?_, by simp⟩
  rw [hcount]
  exact Nat.zero_le _

theorem run_cqInv (hi : CqInv c s.io.cq s.pop s.posted) (h : Run Step s tr s') :
    CqInv c s'.io.cq s'.pop s'.posted :=
  h.stable (I := fun s => CqInv c s.io.cq s.pop s.posted) hi fun _ _ _ hi hs => (step_cq hi hs).inv

/-- What pops took in a run and what is left to take is what was there and what was posted. -/
theorem run_cqFlow (hi : CqInv c s.io.cq s.pop s.posted) (h : Run Step s tr s') :
    taken tr ++ s'.undelivered = s.undelivered ++ posted tr :=
  Run.flow (I := fun s => CqInv c s.io.cq s.pop s.posted) hi
    (fun _ _ _ hi hs => (step_cq hi hs).inv) (fun _ _ _ hi hs => (step_cq hi hs).flow) h

/-! ## Calls -/

/-- The kind of call a pop is. -/
def Popping.kind : Popping → Pop
  | .enter k => k
  | .head k => k
  | .tail k _ => k
  | .read k _ => k
  | .release k _ _ => k

/-- A call of a pop that has begun in `s` and, showing `tr`, has not yet returned. -/
structure UnderWay (k : Pop) (s : State) (tr : List Event) (m : State) : Prop where
  inside : ∃ pc, m.pop = some pc ∧ pc.kind = k
  nothing : taken tr = []
  head : m.io.cqHead = s.io.cqHead

/-- A call of a pop that has returned `res` and, showing `tr`, has come to `m`: it returns a ring
error, having taken nothing, or what it makes of the one completion it took. -/
def Returned (k : Pop) (s : State) (res : PopResult) (tr : List Event) (m : State) : Prop :=
  ((∃ err, res = .error (.inl err)) ∧ taken tr = [] ∧ m.io.cqHead = s.io.cqHead) ∨
    ∃ rc, res = k.resultOf rc ∧ taken tr = [rc] ∧ m.io.cqHead = s.io.cqHead + 1

/-- An operation of the pop takes it on, or it is the last one. -/
theorem UnderWay.own {pc : Popping} {m : State} (ok : Bool) (hknown : pc.Holds m.io.cq)
    (hnothing : taken tr = []) (hhead : m.io.cqHead = s.io.cqHead) :
    let e := (popStep m ok pc).1
    let m' := (popStep m ok pc).2
    (e.popResult? = none ∧ UnderWay pc.kind s (tr ++ [e]) m') ∨
      ∃ res, e.popResult? = some res ∧ Returned pc.kind s res (tr ++ [e]) m' := by
  intro e m'
  -- only the last operation takes anything
  have hgoes : ∀ e' : Event, e'.taken? = none → taken (tr ++ [e']) = [] := by
    intro e' he'
    rw [taken_snoc, hnothing, he']
    rfl
  cases pc with
  | enter k =>
      cases ok with
      | true => exact .inl ⟨rfl, ⟨_, rfl, rfl⟩, hgoes _ rfl, hhead⟩
      | false => exact .inr ⟨_, rfl, .inl ⟨⟨_, rfl⟩, hgoes _ rfl, hhead⟩⟩
  | head k => exact .inl ⟨rfl, ⟨_, rfl, rfl⟩, hgoes _ rfl, hhead⟩
  | tail k head =>
      simp only [e, m', popStep]
      split
      · exact .inr ⟨_, rfl, .inl ⟨⟨_, rfl⟩, hgoes _ rfl, hhead⟩⟩
      · exact .inl ⟨rfl, ⟨_, rfl, rfl⟩, hgoes _ rfl, hhead⟩
  | read k head => exact .inl ⟨rfl, ⟨_, rfl, rfl⟩, hgoes _ rfl, hhead⟩
  | release k head rc =>
      refine .inr ⟨_, rfl, .inr ⟨rc, rfl, ?_, ?_⟩⟩
      · rw [taken_snoc, hnothing]
        rfl
      · show head + 1 = s.io.cqHead + 1
        rw [hknown.1, ← hhead]
        rfl

theorem UnderWay.step {k : Pop} {m m' : State} (hi : CqInv c m.io.cq m.pop m.posted)
    (hu : UnderWay k s tr m) (h : Step m e m') :
    (e.popResult? = none ∧ UnderWay k s (tr ++ [e]) m') ∨
      ∃ res, e.popResult? = some res ∧ Returned k s res (tr ++ [e]) m' := by
  obtain ⟨⟨pc, hpc, rfl⟩, hnothing, hhead⟩ := hu
  rcases step_insidePop hpc h with ⟨ok, rfl, rfl⟩ | haside
  · exact UnderWay.own ok (hi.pop pc hpc) hnothing hhead
  · refine .inl ⟨haside.result, ⟨pc, haside.pop.trans hpc, rfl⟩, ?_, haside.head.trans hhead⟩
    rw [taken_snoc, hnothing, haside.taken]
    rfl

/-- What a call that returned `res` has done, showing `seg`, to the completion ring; `next` is the
completion posted after those that were taken before the call. -/
def PopDid (k : Pop) (res : PopResult) (next : Option I32) (seg : List Event) (s s' : State) :
    Prop :=
  match res with
  | .error (.inl _) => taken seg = [] ∧ s'.io.cqHead = s.io.cqHead
  | .error (.inr err) => ∃ rc, next = some rc ∧ rc.toInt < 0 ∧
      err = k.errorOf (ioUringErrno (rc.signExtend 64)) ∧ taken seg = [rc] ∧
      s'.io.cqHead = s.io.cqHead + 1
  | .ok n => next = some n ∧ 0 ≤ n.toInt ∧ taken seg = [n] ∧ s'.io.cqHead = s.io.cqHead + 1

theorem step_popCalled {k : Pop} (h : Step s (.popCalled k) s') :
    s' = { s with pop := some (.enter k) } := by
  rcases step_pop h with ⟨k', -, he, rfl⟩ | ⟨pc, ok, -, he, -⟩ | haside
  · cases he
    rfl
  · cases pc with
    | tail k head =>
        simp only [popStep] at he
        split at he <;> cases he
    | _ => cases he
  · cases haside.called

/-- **A call of a pop, from its first step to its last**, with anything in between. -/
theorem returned_of_call {k : Pop} {mid : List Event} {res : PopResult}
    (hi : CqInv c s.io.cq s.pop s.posted) (h : Run Step s (.popCalled k :: mid ++ [e]) s')
    (hmid : ∀ x ∈ mid, x.popResult? = none) (he : e.popResult? = some res) :
    Returned k s res (.popCalled k :: mid ++ [e]) s' := by
  obtain ⟨m, hcall, hrun⟩ := h.uncons
  have hm := (step_cq hi hcall).inv
  obtain rfl := step_popCalled hcall
  have hbegun : UnderWay k s [.popCalled k] { s with pop := some (.enter k) } :=
    ⟨⟨_, rfl, rfl⟩, rfl, rfl⟩
  refine Run.until_result (D := fun tr m => UnderWay k s (.popCalled k :: tr) m)
    (R := fun res tr m => Returned k s res (.popCalled k :: tr) m) hbegun ?_ hrun hmid he
  intro tr m e m' hrun hu hs
  exact hu.step (run_cqInv hm hrun) hs

/-- What the completion ring `q` keeps after the run `tr` to `s`. -/
structure Drained (q : EventedIo) (tr : List Event) (s : State) : Prop where
  /-- The results that pops took are the first of those posted, each once and in order. -/
  order : taken tr <+: posted tr
  /-- The others are in the ring. -/
  left : taken tr ++ s.undelivered = posted tr
  /-- Posted and not taken are never more than the ring has entries. -/
  room : s.undelivered.length ≤ q.cqMask.toNat + 1
  /-- A call takes nothing if it returns a ring error, and else the one completion that is next. -/
  call : ∀ k mid e res s', Run Step s (.popCalled k :: mid ++ [e]) s' →
    (∀ x ∈ mid, x.popResult? = none) → e.popResult? = some res →
    PopDid k res (posted (tr ++ (.popCalled k :: mid ++ [e])))[(taken tr).length]?
      (.popCalled k :: mid ++ [e]) s s'

/-- **The completion ring is drained exactly once and in order**, however the kernel's posts fall
among the steps of the pops, whatever `io_uring_enter` does and however often the counters wrap. -/
theorem drains (hq : q.CqSetUp) (h : Run Step (idle q) tr s) : Drained q tr s := by
  obtain ⟨c, h₀⟩ := hq.inv
  have hi : CqInv c s.io.cq s.pop s.posted := run_cqInv h₀ h
  have hempty : (idle q).undelivered = [] := by
    have hcount : q.cq.count = 0 := eq_iff_toNat_sub.mp hq.start
    show q.cq.contents (q.cq.count + 0) = []
    rw [hcount]
    rfl
  have hflow : ∀ {tr s}, Run Step (idle q) tr s → taken tr ++ s.undelivered = posted tr := by
    intro tr s h
    have := run_cqFlow h₀ h
    rwa [hempty, List.nil_append] at this
  refine ⟨⟨_, hflow h⟩, hflow h, ?_, ?_⟩
  · have hlen : s.undelivered.length = s.io.cq.count + s.posted := length_ringFrom
    rw [hlen]
    exact hi.room.trans_eq h₀.mask.symm
  · intro k mid e res s' hcall hmid he
    rcases returned_of_call hi hcall hmid he with
      ⟨⟨err, rfl⟩, htaken, hhead⟩ | ⟨rc, rfl, htaken, hhead⟩
    · exact ⟨htaken, hhead⟩
    · have hnext : (posted (tr ++ (.popCalled k :: mid ++ [e])))[(taken tr).length]? = some rc := by
        have hsplit : taken (tr ++ (.popCalled k :: mid ++ [e])) = taken tr ++ [rc] := by
          rw [← htaken]
          exact List.filterMap_append
        rw [← hflow (h.append hcall), hsplit, List.append_assoc,
          List.getElem?_append_right (Nat.le_refl _), Nat.sub_self]
        rfl
      rw [hnext]
      unfold PopDid
      split
      · next hres => exact absurd hres (k.resultOf_ne_popError rc _)
      · next hres =>
          obtain ⟨hneg, rfl⟩ := Pop.resultOf_opError_iff.mp hres
          exact ⟨rc, rfl, hneg, rfl, htaken, hhead⟩
      · next hres =>
          obtain ⟨hpos, rfl⟩ := Pop.resultOf_ok_iff.mp hres
          exact ⟨rfl, hpos, htaken, hhead⟩

/-- Two entries, and counters about to wrap: a result, a failed system call, an error of the
operation and an empty ring. The second pop leaves the error to the third. -/
theorem drains_wrap :
    ∃ tr s, Run Step (idle (fresh 1 0xFFFFFFFF false)) tr s ∧ posted tr = [16, -9] ∧
      s.io.cqHead = 1 ∧ tr.filterMap Event.popResult? =
        [.ok 16, .error (.inl .completionCheckError), .error (.inr (.read .badFd)),
          .error (.inl .ringEmpty)] ∧
      Drained (fresh 1 0xFFFFFFFF false) tr s := by
  have h := Run.of_exec step_of_move
    (show exec move (idle (fresh 1 0xFFFFFFFF false))
      [.popCall .write, .post 16, .post (-9), .pop true, .commit 2, .pop true, .pop true,
        .pop true, .pop true, .popCall .writev, .pop false, .popCall .read, .pop true, .pop true,
        .pop true, .pop true, .pop true, .popCall .read, .pop true, .pop true, .pop true] =
        some _ from rfl)
  exact ⟨_, _, h, rfl, rfl, rfl, drains ⟨⟨1, by decide, rfl⟩, rfl⟩ h⟩

end EventedIo

end Shclog
