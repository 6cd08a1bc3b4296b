import Mathlib.Data.List.Duplicate
import Mathlib.Data.Nat.Factorization.Basic
import Mathlib.Data.Set.Function
import Shclog.MPSCQSlotted.Delivery
import Shclog.MPSCQSlotted.Sequential

/-! # `MPSCQSlotted` needs a power of two

Nothing checks the `N` of the template. Below the lowest zero bit of `N - 1` the mask tells cells
apart as it would for a power of two, and at that bit it names the first cell again. If it is the
very lowest bit, the second item lands on the first; otherwise the consumer comes round to a cell it
has emptied already, and which looks full to it. -/

namespace Shclog.MPSCQSlotted

open Lib

variable {T P : Type} {N : Usize} {item : Nat → T} {j m t h i : Nat}

/-- `Cell buffer[N]` is a type: an object has at most `PTRDIFF_MAX` bytes, and a cell at least
one. -/
def IsArrayBound (N : Usize) : Prop := N.toNat < 2 ^ 63

/-! ## Cells up to the lowest zero bit -/

/-- Where `N` is `2 ^ j` times an odd number, the lowest zero bit of `N - 1` is the one numbered
`j`, and only the bits below it are left of a position that does not go beyond it. -/
theorem slot_below (hm : Odd m) (hN : N.toNat = 2 ^ j * m) (hi : i < 2 ^ (j + 1))
    (hi' : i < 2 ^ 64) : BitVec.ofNat 64 i &&& mask N = BitVec.ofNat 64 (i % 2 ^ j) := by
  have hpos : 0 < N.toNat := hN ▸ Nat.mul_pos (Nat.two_pow_pos j) hm.pos
  have hmask : (mask N).toNat = 2 ^ j * m - 1 := by
    rw [← hN]
    exact BitVec.toNat_sub_of_le (by rw [BitVec.le_def]; exact hpos)
  apply BitVec.eq_of_toNat_eq
  rw [BitVec.toNat_and, hmask, BitVec.toNat_ofNat, BitVec.toNat_ofNat, Nat.mod_eq_of_lt hi',
    and_pred_eq_mod hm hi, Nat.mod_eq_of_lt ((Nat.mod_le _ _).trans_lt hi')]

/-! ## The first lap -/

/-- The queue once `h` items have been put in and `t` of them taken out, each in a cell of its
own. -/
def firstLap (N : Usize) (item : Nat → T) (t h : Nat) : MPSCQSlotted T where
  tail := BitVec.ofNat 64 t
  head := BitVec.ofNat 64 h
  buffer := fun c =>
    if c.toNat < t then { seq := c + N, data := some (item c.toNat) }
    else if c.toNat < h then { seq := c + 1, data := some (item c.toNat) }
    else (new N).buffer c

@[simp] theorem advance_buffer (q : MPSCQSlotted T) : q.advance.buffer = q.buffer := rfl

theorem toNat_ofNat_below (hi : i < N.toNat) : (BitVec.ofNat 64 i).toNat = i := by
  rw [BitVec.toNat_ofNat, Nat.mod_eq_of_lt (hi.trans N.isLt)]

/-- An item goes into a cell that nobody has been at. -/
theorem enqueue_firstLap (hslot : BitVec.ofNat 64 h &&& mask N = BitVec.ofNat 64 h)
    (hth : t ≤ h) (hh : h < N.toNat) :
    enqueue N (firstLap N item t h) (some (item h)) = some (true, firstLap N item t (h + 1)) := by
  have hnat := toNat_ofNat_below hh
  have hcell : (firstLap N item t h).buffer (BitVec.ofNat 64 h) = { seq := BitVec.ofNat 64 h } := by
    dsimp only [firstLap]
    rw [hnat, if_neg (Nat.not_lt.mpr hth), if_neg (Nat.lt_irrefl h)]
    exact if_pos (by rw [BitVec.lt_def, hnat]; exact hh)
  have hslot' : (firstLap N item t h).head &&& mask N = BitVec.ofNat 64 h := hslot
  have hseq : ((firstLap N item t h).buffer ((firstLap N item t h).head &&& mask N)).seq -
      (firstLap N item t h).head = 0 := by
    rw [hslot', hcell]
    exact BitVec.sub_self _
  rw [enqueue, if_pos hseq, hslot']
  refine congrArg (fun q => some (true, q)) ?_
  refine MPSCQSlotted.ext rfl (word_succ h) ?_
  funext c
  by_cases hc : c = BitVec.ofNat 64 h
  · rw [hc, setSeq_self, setData_self]
    dsimp only [firstLap]
    rw [hnat, if_neg (Nat.not_lt.mpr hth), if_pos (Nat.lt_succ_self h)]
  · have hne : c.toNat ≠ h := by
      intro he
      exact hc (by rw [← he, BitVec.ofNat_toNat, BitVec.setWidth_eq])
    have hlt : c.toNat < h + 1 ↔ c.toNat < h := by omega
    rw [setSeq_of_ne hc, setData_of_ne hc]
    simp only [headAdd_buffer, firstLap, hlt]

/-- The oldest item comes out of its cell, which is stamped for the lap after. -/
theorem dequeue_firstLap (hslot : BitVec.ofNat 64 t &&& mask N = BitVec.ofNat 64 t)
    (hth : t < h) (ht : t < N.toNat) :
    dequeue N (firstLap N item t h) = (some (item t), firstLap N item (t + 1) h) := by
  have hnat := toNat_ofNat_below ht
  have hcell : (firstLap N item t h).buffer (BitVec.ofNat 64 t) =
      { seq := BitVec.ofNat 64 t + 1, data := some (item t) } := by
    dsimp only [firstLap]
    rw [hnat, if_neg (Nat.lt_irrefl t), if_pos hth]
  have hslot' : (firstLap N item t h).tail &&& mask N = BitVec.ofNat 64 t := hslot
  have hdif : ¬ (((firstLap N item t h).buffer ((firstLap N item t h).tail &&& mask N)).seq -
      ((firstLap N item t h).tail + 1)).toInt < 0 := by
    rw [hslot', hcell]
    show ¬ (BitVec.ofNat 64 t + 1 - (BitVec.ofNat 64 t + 1)).toInt < 0
    rw [BitVec.sub_self]
    decide
  rw [dequeue, if_neg hdif, hslot', hcell]
  refine congrArg (fun q => (some (item t), q)) ?_
  refine MPSCQSlotted.ext (word_succ t) rfl ?_
  funext c
  by_cases hc : c = BitVec.ofNat 64 t
  · rw [advance_buffer, hc, setSeq_self, hcell]
    dsimp only [firstLap]
    rw [hnat, if_pos (Nat.lt_succ_self t)]
  · have hne : c.toNat ≠ t := by
      intro he
      exact hc (by rw [← he, BitVec.ofNat_toNat, BitVec.setWidth_eq])
    have hlt : c.toNat < t + 1 ↔ c.toNat < t := by omega
    rw [advance_buffer, setSeq_of_ne hc]
    simp only [firstLap, hlt]

/-! ## Items lost -/

/-- Nothing in the queue or on its way there is `x`. -/
structure Absent (x : T) (s : State T P) : Prop where
  cells : ∀ c, (s.queue.buffer c).data ≠ some x
  producers : ∀ p pc, s.enq p = some pc → pc.stage.1 ≠ some x
  consumer : s.deq ≠ some (.release (some x))

/-- Whatever is done with the queue from here on, by however many threads, `x` will not come out of
it, unless somebody puts it in again. -/
def Gone (N : Usize) (q : MPSCQSlotted T) (x : T) : Prop :=
  ∀ {P : Type} [DecidableEq P] {s s' : State T P} {tr : List (Event T P)},
    s.queue = q → s.Quiescent → Run (Step N) s tr s' → (∀ c, .called c (some x) ∉ tr) →
      .dequeued (some x) ∉ tr

section Absent

variable [DecidableEq P] {x : T} {s s' : State T P} {e : Event T P}

theorem Absent.goto {q : MPSCQSlotted T} {p : P} {pc : Enqueue T} (ha : Absent x s)
    (hq : ∀ c, (q.buffer c).data ≠ some x) (hpc : pc.stage.1 ≠ some x) :
    Absent x (s.goto q p pc) := by
  refine ⟨hq, ?_, ha.consumer⟩
  intro p' pc' hp'
  rcases eq_some_of_update hp' with ⟨-, ⟨⟩⟩ | ⟨-, hp'⟩
  · exact hpc
  · exact ha.producers p' pc' hp'

theorem Absent.leave {q : MPSCQSlotted T} {p : P} (ha : Absent x s)
    (hq : ∀ c, (q.buffer c).data ≠ some x) : Absent x (s.leave q p) := by
  refine ⟨hq, ?_, ha.consumer⟩
  intro p' pc' hp'
  rcases eq_some_of_update hp' with ⟨-, ⟨⟩⟩ | ⟨-, hp'⟩
  exact ha.producers p' pc' hp'

theorem Absent.setData {q : MPSCQSlotted T} {i : Usize} {v : Option T}
    (hq : ∀ c, (q.buffer c).data ≠ some x) (hv : v ≠ some x) (c : Usize) :
    ((q.setData i v).buffer c).data ≠ some x := by
  by_cases hc : c = i
  · rw [hc, setData_self]
    exact hv
  · rw [setData_of_ne hc]
    exact hq c

/-- A producer only ever moves its own pointer. -/
theorem Absent.enqueueStep {p : P} {pc : Enqueue T} (ha : Absent x s) (hp : s.enq p = some pc) :
    (enqueueStep N s p pc).1 ≠ .dequeued (some x) ∧ Absent x (enqueueStep N s p pc).2 := by
  have hpc := ha.producers p pc hp
  cases pc with
  | ticket v => exact ⟨by simp [MPSCQSlotted.enqueueStep], ha.goto ha.cells hpc⟩
  | spin v pos =>
      rw [MPSCQSlotted.enqueueStep]
      split
      · exact ⟨by simp, ha.goto ha.cells hpc⟩
      · exact ⟨by simp, ha⟩
  | write v pos =>
      exact ⟨by simp [MPSCQSlotted.enqueueStep], ha.goto (Absent.setData ha.cells hpc) hpc⟩
  | publish v pos =>
      refine ⟨by simp [MPSCQSlotted.enqueueStep], ha.leave ?_⟩
      intro c
      rw [setSeq_data]
      exact ha.cells c

omit [DecidableEq P] in
/-- The consumer returns what it has read from a cell. -/
theorem Absent.dequeueStep (ha : Absent x s) :
    (dequeueStep N s).1 ≠ .dequeued (some x) ∧ Absent x (dequeueStep N s).2 := by
  unfold MPSCQSlotted.dequeueStep
  cases hd : s.deq with
  | none =>
      dsimp only
      split
      · exact ⟨by simp, ha⟩
      · exact ⟨by simp, ha.cells, ha.producers, by simp⟩
  | some pc =>
      cases pc with
      | read =>
          refine ⟨by simp, ha.cells, ha.producers, ?_⟩
          intro he
          rw [Option.some.injEq, Dequeue.release.injEq] at he
          exact ha.cells _ he
      | release v =>
          have hv : v ≠ some x := by
            rintro rfl
            exact ha.consumer hd
          refine ⟨by simpa using hv, ?_, ha.producers, by simp⟩
          intro c
          show ((s.queue.setSeq _ _).buffer c).data ≠ _
          rw [setSeq_data]
          exact ha.cells c

theorem Absent.step (ha : Absent x s) (h : Step N s e s')
    (hcall : ∀ c, e ≠ .called c (some x)) : e ≠ .dequeued (some x) ∧ Absent x s' := by
  cases h with
  | call v hp =>
      refine ⟨by simp, ha.goto ha.cells ?_⟩
      rintro rfl
      exact hcall _ rfl
  | enqueue hp => exact ha.enqueueStep hp
  | dequeue => exact ha.dequeueStep

end Absent

/-- What no cell holds any more is gone. -/
theorem gone_of_cells {q : MPSCQSlotted T} {x : T} (hq : ∀ c, (q.buffer c).data ≠ some x) :
    Gone N q x := by
  intro P _ s s' tr hs hquiet h hcall
  have habs : Absent x s := by
    refine ⟨hs ▸ hq, ?_, by rw [hquiet.2]; simp⟩
    intro p pc hp
    rw [hquiet.1] at hp
    cases hp
  have hinv : (∀ c, .called c (some x) ∉ tr) → .dequeued (some x) ∉ tr ∧ Absent x s' := by
    refine h.invariant (I := fun tr s' => (∀ c, .called c (some x) ∉ tr) →
      .dequeued (some x) ∉ tr ∧ Absent x s') (fun _ => ⟨List.not_mem_nil, habs⟩) ?_
    intro tr m e m' _ ih hstep hcall
    obtain ⟨hnot, ha⟩ := ih fun c hc => hcall c (List.mem_append_left _ hc)
    obtain ⟨hne, ha'⟩ := ha.step hstep fun c hc => hcall c (by simp [hc])
    refine ⟨?_, ha'⟩
    rw [List.mem_append, List.mem_singleton]
    rintro (hmem | hlast)
    · exact hnot hmem
    · exact hne hlast.symm
  exact (hinv hcall).1

theorem step_put {q q' : MPSCQSlotted T} {x : T} (h : enqueue N q (some x) = some (true, q')) :
    (asFifo N).Step q (.put x, .put true) q' := by
  show (enqueue N q (some x)).map _ = _
  rw [h]
  rfl

theorem step_take {q q' : MPSCQSlotted T} {r : Option T} (h : dequeue N q = (r, q')) :
    (asFifo N).Step q (.take, .took r) q' := by
  rw [FifoImpl.Step, FifoImpl.call]
  show (some (dequeue N q)).map _ = _
  rw [h]
  rfl

/-- An item that was accepted into a cell, and has been overwritten there without having come out of
the queue: it is in no cell any more, and will never come out. -/
structure Lost (N : Usize) (tr : List (FifoOp T × FifoResult T)) (q : MPSCQSlotted T) (x : T) :
    Prop where
  overwritten : ∃ tr₁ tr₂ m c, tr = tr₁ ++ (.put x, .put true) :: tr₂ ∧
    Run (asFifo N).Step (new N) (tr₁ ++ [(.put x, .put true)]) m ∧
    (m.buffer c).data = some x ∧ Run (asFifo N).Step m tr₂ q ∧
    ∃ y ≠ x, (q.buffer c).data = some y
  untaken : (.take, .took (some x)) ∉ tr
  nowhere : ∀ c, (q.buffer c).data ≠ some x
  gone : Gone N q x

/-- **An odd size loses an item.** The first cell, once it is published, has the stamp that the
second ticket waits for, and that ticket names it too. -/
theorem exists_lost (hodd : Odd N.toNat) (hne : item 0 ≠ item 1) :
    ∃ tr q, Run (asFifo N).Step (new N) tr q ∧ (tr.filterMap fun e => e.1.put?).Nodup ∧
      Lost N tr q (item 0) := by
  have hslot : ∀ i < 2, BitVec.ofNat 64 i &&& mask N = 0 := by
    intro i hi
    rw [slot_below (j := 0) hodd (by rw [Nat.pow_zero, Nat.one_mul]) hi (by omega), Nat.pow_zero,
      Nat.mod_one]
    rfl
  have hput : enqueue N (firstLap N item 0 0) (some (item 0)) =
      some (true, firstLap N item 0 1) :=
    enqueue_firstLap (hslot 0 (by decide)) le_rfl hodd.pos
  have hcell : (firstLap N item 0 1).buffer 0 = { seq := 1, data := some (item 0) } := rfl
  have hslot' : (firstLap N item 0 1).head &&& mask N = 0 := hslot 1 (by decide)
  have hput' : enqueue N (firstLap N item 0 1) (some (item 1)) =
      some (true, ((firstLap N item 0 1).headAdd.setData 0 (some (item 1))).setSeq 0 2) := by
    rw [enqueue, hslot', hcell]
    exact if_pos (BitVec.sub_self _)
  have hcells : ∀ c, ((((firstLap N item 0 1).headAdd.setData 0 (some (item 1))).setSeq 0 2).buffer
      c).data ≠ some (item 0) := by
    intro c
    rw [setSeq_data]
    by_cases hc : c = 0
    · rw [hc, setData_self]
      simpa using hne.symm
    · have hpos : ¬ c.toNat < 1 := by
        intro hlt
        exact hc (BitVec.eq_of_toNat_eq (Nat.lt_one_iff.mp hlt))
      rw [setData_of_ne hc, headAdd_buffer]
      dsimp only [firstLap]
      rw [if_neg (Nat.not_lt_zero _), if_neg hpos, new]
      dsimp only
      split <;> simp
  have hlast : ((((firstLap N item 0 1).headAdd.setData 0 (some (item 1))).setSeq 0 2).buffer
      0).data = some (item 1) := by
    rw [setSeq_data, setData_self]
  refine ⟨[(.put (item 0), .put true), (.put (item 1), .put true)], _,
    .cons (step_put hput) (.single (step_put hput')), ?_, ?_, by simp, hcells,
    gone_of_cells hcells⟩
  · simpa [FifoOp.put?] using hne
  · exact ⟨[], [(.put (item 1), .put true)], _, 0, rfl, .single (step_put hput), by rw [hcell],
      .single (step_put hput'), item 1, hne.symm, hlast⟩

/-! ## Items taken twice -/

section Stale

variable (hm : Odd m) (hN : N.toNat = 2 ^ j * m)
include hm hN

/-- One item after another, in and out, up to the lowest zero bit of `N - 1`. -/
theorem run_firstLap (item : Nat → T) {n : Nat} (hn : n ≤ 2 ^ j) :
    ∃ tr, Run (asFifo N).Step (new N) tr (firstLap N item n n) ∧
      (tr.filterMap fun e => e.1.put?) = (List.range n).map item ∧
      ∀ i < n, (.take, .took (some (item i))) ∈ tr := by
  induction n with
  | zero => exact ⟨[], .nil, rfl, by simp⟩
  | succ n ih =>
      obtain ⟨tr, hrun, hputs, htook⟩ := ih (by omega)
      have hlt : n < N.toNat := by
        rw [hN]
        exact (Nat.lt_of_succ_le hn).trans_le (Nat.le_mul_of_pos_right _ hm.pos)
      have hslot : BitVec.ofNat 64 n &&& mask N = BitVec.ofNat 64 n := by
        rw [slot_below hm hN (by rw [Nat.pow_succ]; omega) (hlt.trans N.isLt), Nat.mod_eq_of_lt hn]
      have hput : (asFifo N).Step (firstLap N item n n) (.put (item n), .put true)
          (firstLap N item n (n + 1)) :=
        step_put (enqueue_firstLap hslot le_rfl hlt)
      have htake : (asFifo N).Step (firstLap N item n (n + 1)) (.take, .took (some (item n)))
          (firstLap N item (n + 1) (n + 1)) :=
        step_take (dequeue_firstLap hslot (Nat.lt_succ_self n) hlt)
      refine ⟨tr ++ [(.put (item n), .put true)] ++ [(.take, .took (some (item n)))],
        (hrun.snoc hput).snoc htake, ?_, ?_⟩
      · rw [List.filterMap_append, List.filterMap_append, hputs, List.range_succ, List.map_append,
          List.append_assoc]
        rfl
      · intro i hi
        rcases Nat.lt_succ_iff_lt_or_eq.mp hi with hi | rfl
        · simp [htook i hi]
        · simp

/-- The consumer comes back to the first cell, whose stamp for the next lap is not behind. -/
theorem dequeue_stale (hbound : IsArrayBound N) (hm3 : 3 ≤ m) (item : Nat → T) :
    (dequeue N (firstLap N item (2 ^ j) (2 ^ j))).1 = some (item 0) := by
  have hpos := Nat.two_pow_pos j
  have hle : 2 ^ j * 3 ≤ N.toNat := hN ▸ Nat.mul_le_mul_left _ hm3
  have hN63 : N.toNat < 2 ^ 63 := hbound
  have hslot : (firstLap N item (2 ^ j) (2 ^ j)).tail &&& mask N = 0 := by
    show BitVec.ofNat 64 (2 ^ j) &&& mask N = 0
    rw [slot_below hm hN (by rw [Nat.pow_succ]; omega) (by omega), Nat.mod_self]
    rfl
  have hcell : (firstLap N item (2 ^ j) (2 ^ j)).buffer 0 =
      { seq := 0 + N, data := some (item 0) } := if_pos hpos
  have hdif : ¬ (0 + N - ((firstLap N item (2 ^ j) (2 ^ j)).tail + 1)).toInt < 0 := by
    have htail : ((firstLap N item (2 ^ j) (2 ^ j)).tail + 1).toNat = 2 ^ j + 1 := by
      show (BitVec.ofNat 64 (2 ^ j) + 1).toNat = _
      rw [word_succ, BitVec.toNat_ofNat, Nat.mod_eq_of_lt (by omega)]
    have hsub : (0 + N - ((firstLap N item (2 ^ j) (2 ^ j)).tail + 1)).toNat =
        N.toNat - (2 ^ j + 1) := by
      have hzero : 0 + N = N := BitVec.zero_add N
      rw [hzero, BitVec.toNat_sub_of_le (by rw [BitVec.le_def, htail]; omega), htail]
    rw [BitVec.toInt_eq_toNat_of_lt (by rw [hsub]; omega)]
    exact not_lt.mpr (Int.natCast_nonneg _)
  rw [dequeue, hslot, hcell, if_neg hdif]

/-- **An even size takes an item twice**, if it is no power of two. -/
theorem exists_duplicate (hbound : IsArrayBound N) (hm3 : 3 ≤ m)
    (hitem : Set.InjOn item (Set.Iic N.toNat)) :
    ∃ tr q, Run (asFifo N).Step (new N) tr q ∧ (tr.filterMap fun e => e.1.put?).Nodup ∧
      List.Duplicate (.take, .took (some (item 0))) tr := by
  obtain ⟨tr, hrun, hputs, htook⟩ := run_firstLap hm hN item le_rfl
  have hstale : (asFifo N).Step (firstLap N item (2 ^ j) (2 ^ j))
      (.take, .took (some (item 0))) (dequeue N (firstLap N item (2 ^ j) (2 ^ j))).2 := by
    apply step_take
    rw [← dequeue_stale hm hN hbound hm3 item]
  refine ⟨tr ++ [(.take, .took (some (item 0)))], _, hrun.snoc hstale, ?_, ?_⟩
  · rw [List.filterMap_append, hputs]
    show ((List.range (2 ^ j)).map item ++ []).Nodup
    rw [List.append_nil]
    refine List.Nodup.map_on ?_ List.nodup_range
    intro a ha b hb he
    have hle : 2 ^ j ≤ N.toNat := hN ▸ Nat.le_mul_of_pos_right _ hm.pos
    rw [List.mem_range] at ha hb
    exact hitem (ha.le.trans hle) (hb.le.trans hle) he
  · rw [List.duplicate_iff_sublist]
    exact (List.singleton_sublist.mpr (htook 0 (Nat.two_pow_pos j))).append (List.Sublist.refl _)

end Stale

/-- **Every other size goes wrong**: some sequence of calls, all of which return, with items that
are all different, overwrites one that was accepted or takes one twice. -/
theorem size_needed (h1 : 1 ≤ N.toNat) (hbound : IsArrayBound N)
    (hpow : ¬ (2 ≤ N.toNat ∧ N.toNat.isPowerOfTwo)) (hitem : Set.InjOn item (Set.Iic N.toNat)) :
    ∃ (tr : List (FifoOp T × FifoResult T)) (q : MPSCQSlotted T) (x : T),
      Run (asFifo N).Step (new N) tr q ∧ (tr.filterMap fun e => e.1.put?).Nodup ∧
        (Lost N tr q x ∨ List.Duplicate (.take, .took (some x)) tr) := by
  obtain ⟨j, m, hm, hN⟩ := Nat.exists_eq_two_pow_mul_odd (Nat.one_le_iff_ne_zero.mp h1)
  by_cases hj : j = 0
  · have hodd : Odd N.toNat := by
      rwa [hN, hj, Nat.pow_zero, Nat.one_mul]
    have hne : item 0 ≠ item 1 := by
      intro he
      exact absurd (hitem (Nat.zero_le _) h1 he) Nat.zero_ne_one
    obtain ⟨tr, q, hrun, hnodup, hlost⟩ := exists_lost hodd hne
    exact ⟨tr, q, item 0, hrun, hnodup, Or.inl hlost⟩
  · have hm3 : 3 ≤ m := by
      by_contra hlt
      -- the odd numbers below are one
      obtain ⟨r, rfl⟩ := hm
      obtain rfl : r = 0 := by omega
      refine hpow ⟨?_, j, by rw [hN]; ring⟩
      have : 2 ^ 1 ≤ 2 ^ j := Nat.pow_le_pow_right (by decide) (Nat.one_le_iff_ne_zero.mpr hj)
      rw [hN]
      omega
    obtain ⟨tr, q, hrun, hnodup, hdup⟩ := exists_duplicate hm hN hbound hm3 hitem
    exact ⟨tr, q, item 0, hrun, hnodup, Or.inr hdup⟩

theorem size_needed_six :
    ∃ (tr : List (FifoOp Nat × FifoResult Nat)) (q : MPSCQSlotted Nat) (x : Nat),
      Run (asFifo 6).Step (new 6) tr q ∧ (tr.filterMap fun e => e.1.put?).Nodup ∧
        (Lost 6 tr q x ∨ List.Duplicate (.take, .took (some x)) tr) := by
  refine size_needed (by decide) (by unfold IsArrayBound; decide) ?_
    (Function.injective_id (α := Nat)).injOn
  rintro ⟨-, h⟩
  exact absurd ((Nat.and_sub_one_eq_zero_iff_isPowerOfTwo (by decide)).mpr h) (by decide)

end Shclog.MPSCQSlotted
