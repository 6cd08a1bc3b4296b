import Shclog.MPSCQueue.Basic
import Shclog.Lib.Calls
import Shclog.Lib.Tally

/-! # The invariant of `MPSCQueue`

A reachable state is read against a log of tickets: position `i` of the log is the `i`-th
`head.fetch_add`, and its cursor counts the calls of `dequeue` that have returned an item. The
words `head` and `tail` wrap; the log's positions do not.

* `Ledger` accounts for `count`: tickets not yet released, reservations that have no ticket yet,
  and failed reservations about to be undone. The first two together never exceed the capacity.
* `Slots` accounts for the cells: positions from the consumer's up to the last ticket fit into one
  lap, and a position's cell holds its item as soon as its producer is past the store.

`step_inv` shows that every step keeps both and is, on the log, what its event says it is. -/

namespace Shclog.MPSCQueue

open Lib

variable {T P : Type} {k : Nat} {s s' : State T P} {g : Log (Call P × T)}

/-! ## Where threads stand -/

def isTicket : Option (Enqueue T) → Bool
  | some (.ticket _) => true
  | _ => false

def isUndo : Option (Enqueue T) → Bool
  | some (.undo _) => true
  | _ => false

def isStore : Option (Enqueue T) → Bool
  | some (.store _ _) => true
  | _ => false

namespace State

/-- The call `c` has its ticket and has not stored its item. -/
def Storing (s : State T P) (c : Call P) : Prop := c.2 = s.calls c.1 ∧ isStore (s.enq c.1)

/-- How many items the consumer has taken out of the buffer. -/
def taken (s : State T P) (g : Log (Call P × T)) : Nat := g.popped + s.deq.isSome.toNat

/-- Accepted reservations that `dequeue` has not released. -/
def reserved [Fintype P] (s : State T P) (g : Log (Call P × T)) : Nat :=
  g.pushed.length - g.popped + tally s.enq isTicket

end State

/-- What `count` counts. -/
structure Ledger [Fintype P] (k : Nat) (s : State T P) (g : Log (Call P × T)) : Prop where
  max : s.queue.max = BitVec.ofNat 64 (2 ^ k)
  count : s.queue.count = BitVec.ofNat 64 (s.reserved g + tally s.enq isUndo)
  room : s.reserved g ≤ 2 ^ k

/-- What the cells hold. -/
structure Slots (k : Nat) (s : State T P) (g : Log (Call P × T)) : Prop where
  bufMask : s.queue.bufMask = BitVec.ofNat 64 (2 ^ k - 1)
  head : s.queue.head = BitVec.ofNat 64 g.pushed.length
  tail : s.queue.tail = slot 64 k (s.taken g)
  /-- every ticket belongs to one call -/
  nodup : (g.pushed.map Prod.fst).Nodup
  /-- a call that has a ticket is over, or about to store -/
  called : ∀ c ∈ g.pushed.map Prod.fst, c.2 < s.calls c.1 ∨ s.Storing c
  /-- the slot of a ticket on the way to its cell is still ahead of the consumer -/
  storing : ∀ p v h, s.enq p = some (.store v h) →
    ∃ i, s.taken g ≤ i ∧ g.pushed[i]? = some (s.call p, v) ∧ h = BitVec.ofNat 64 i
  cell : ∀ i c v, s.taken g ≤ i → g.pushed[i]? = some (c, v) →
    (s.Storing c ∧ s.queue.buffer (slot 64 k i) = none) ∨
      (¬ s.Storing c ∧ s.queue.buffer (slot 64 k i) = some v)
  /-- the rest of the lap is empty -/
  empty : ∀ i, g.pushed.length ≤ i → i < s.taken g + 2 ^ k → s.queue.buffer (slot 64 k i) = none
  deq : ∀ v, s.deq = some v → ∃ c, g.pushed[g.popped]? = some (c, v)

structure Inv [Fintype P] (k : Nat) (s : State T P) (g : Log (Call P × T)) : Prop where
  ledger : Ledger k s g
  slots : Slots k s g

/-! ## The ledger -/

section Ledger

variable [Fintype P]

/-- The early load and the reservation see a full queue exactly when everything accounted for
reaches the capacity; this is where the word must not have wrapped. -/
theorem Ledger.full_iff (hl : Ledger k s g) (hfit : 2 ^ k + Fintype.card P < 2 ^ 64) :
    s.queue.count ≥ s.queue.max ↔ 2 ^ k ≤ s.reserved g + tally s.enq isUndo := by
  have hundo : tally s.enq isUndo ≤ Fintype.card P := tally_le
  have hroom := hl.room
  rw [hl.count, hl.max, ge_iff_le, BitVec.le_def, BitVec.toNat_ofNat, BitVec.toNat_ofNat,
    Nat.mod_eq_of_lt (show 2 ^ k < 2 ^ 64 by omega), Nat.mod_eq_of_lt (by omega)]

/-- A step that neither moves a thread between counted places nor touches `count`. -/
theorem Ledger.congr (hl : Ledger k s g) (hmax : s'.queue.max = s.queue.max)
    (hcount : s'.queue.count = s.queue.count)
    (hticket : tally s'.enq isTicket = tally s.enq isTicket)
    (hundo : tally s'.enq isUndo = tally s.enq isUndo) : Ledger k s' g := by
  have hres : s'.reserved g = s.reserved g := by rw [State.reserved, hticket, State.reserved]
  exact ⟨hmax.trans hl.max, by rw [hcount, hl.count, hres, hundo], hres ▸ hl.room⟩

variable [DecidableEq P]

/-- A producer that is not counted and moves to a place that is not counted. -/
theorem Ledger.goto (hl : Ledger k s g) {p : P} {pc : Enqueue T}
    (hp : isTicket (s.enq p) = false ∧ isUndo (s.enq p) = false)
    (hpc : isTicket (some pc) = false ∧ isUndo (some pc) = false) :
    Ledger k (s.goto s.queue p pc) g :=
  hl.congr rfl rfl (tally_update_same hp.1 hpc.1) (tally_update_same hp.2 hpc.2)

theorem Ledger.leave (hl : Ledger k s g) {q : MPSCQueue T} {p : P}
    (hp : isTicket (s.enq p) = false ∧ isUndo (s.enq p) = false)
    (hmax : q.max = s.queue.max) (hcount : q.count = s.queue.count) :
    Ledger k (s.leave q p) g :=
  hl.congr hmax hcount (tally_update_same hp.1 rfl) (tally_update_same hp.2 rfl)

/-- A reservation beyond the capacity is counted as one to be undone. -/
theorem Ledger.reject (hl : Ledger k s g) {p : P} {v : T} (hp : s.enq p = some (.reserve v)) :
    Ledger k (s.goto s.queue.countAdd p (.undo v)) g := by
  have hticket : tally (Function.update s.enq p (some (.undo v))) isTicket =
      tally s.enq isTicket := tally_update_same (by rw [hp]; rfl) rfl
  have hundo : tally (Function.update s.enq p (some (.undo v))) isUndo =
      tally s.enq isUndo + 1 := tally_update_enter (by rw [hp]; rfl) rfl
  have hres : (s.goto s.queue.countAdd p (.undo v)).reserved g = s.reserved g := by
    rw [State.reserved, State.goto_enq, hticket, State.reserved]
  refine ⟨hl.max, ?_, hres ▸ hl.room⟩
  show s.queue.count + 1 = _
  rw [hl.count, word_succ, State.goto_enq, hundo, hres, Nat.add_assoc]

/-- A reservation below the capacity waits for its ticket. -/
theorem Ledger.accept (hl : Ledger k s g) (hfit : 2 ^ k + Fintype.card P < 2 ^ 64) {p : P} {v : T}
    (hp : s.enq p = some (.reserve v)) (hlt : ¬ s.queue.count ≥ s.queue.max) :
    Ledger k (s.goto s.queue.countAdd p (.ticket v)) g := by
  have hticket : tally (Function.update s.enq p (some (.ticket v))) isTicket =
      tally s.enq isTicket + 1 := tally_update_enter (by rw [hp]; rfl) rfl
  have hundo : tally (Function.update s.enq p (some (.ticket v))) isUndo =
      tally s.enq isUndo := tally_update_same (by rw [hp]; rfl) rfl
  have hres : (s.goto s.queue.countAdd p (.ticket v)).reserved g = s.reserved g + 1 := by
    rw [State.reserved, State.goto_enq, hticket, State.reserved, Nat.add_assoc]
  rw [hl.full_iff hfit] at hlt
  refine ⟨hl.max, ?_, by omega⟩
  show s.queue.count + 1 = _
  rw [hl.count, word_succ, State.goto_enq, hundo, hres, Nat.add_right_comm]

/-- Undoing a failed reservation. -/
theorem Ledger.undo (hl : Ledger k s g) {p : P} {v : T} (hp : s.enq p = some (.undo v)) :
    Ledger k (s.leave s.queue.countSub p) g := by
  have hticket : tally (Function.update s.enq p none) isTicket = tally s.enq isTicket :=
    tally_update_same (by rw [hp]; rfl) rfl
  have hundo : tally (Function.update s.enq p none) isUndo + 1 = tally s.enq isUndo :=
    tally_update_leave (by rw [hp]; rfl) rfl
  have hres : (s.leave s.queue.countSub p).reserved g = s.reserved g := by
    rw [State.reserved, State.leave_enq, hticket, State.reserved]
  refine ⟨hl.max, ?_, hres ▸ hl.room⟩
  show s.queue.count - 1 = _
  rw [hl.count, hres, State.leave_enq, ← hundo, ← Nat.add_assoc, word_pred]

/-- A reservation that gets its ticket is counted by the log from then on. -/
theorem Ledger.ticket (hl : Ledger k s g) {p : P} {v : T} {h : Usize}
    (hp : s.enq p = some (.ticket v)) :
    Ledger k (s.goto s.queue.headAdd p (.store v h)) (g.push (s.call p, v)) := by
  have hticket : tally (Function.update s.enq p (some (.store v h))) isTicket + 1 =
      tally s.enq isTicket := tally_update_leave (by rw [hp]; rfl) rfl
  have hundo : tally (Function.update s.enq p (some (.store v h))) isUndo =
      tally s.enq isUndo := tally_update_same (by rw [hp]; rfl) rfl
  have hres : (s.goto s.queue.headAdd p (.store v h)).reserved (g.push (s.call p, v)) =
      s.reserved g := by
    have := g.popped_le
    simp only [State.reserved, State.goto_enq, Log.push_pushed, Log.push_popped,
      List.length_append, List.length_singleton]
    omega
  exact ⟨hl.max, by rw [hres, State.goto_enq, hundo]; exact hl.count, hres ▸ hl.room⟩

/-- A producer about to take its ticket has a slot of its own. -/
theorem Ledger.ticket_room (hl : Ledger k s g) {p : P} {v : T} (hp : s.enq p = some (.ticket v)) :
    g.pushed.length < g.popped + 2 ^ k := by
  have hticket := tally_update_leave (f := s.enq) (c := isTicket) (a := none)
    (show isTicket (s.enq p) = true by rw [hp]; rfl) rfl
  have := hl.room
  rw [State.reserved] at this
  omega

omit [DecidableEq P] in
/-- `dequeue` gives a slot back. -/
theorem Ledger.release (hl : Ledger k s g) (hlt : g.popped < g.pushed.length) :
    Ledger k { s with queue := s.queue.countSub, deq := none } (g.pop hlt) := by
  have hres : State.reserved { s with queue := s.queue.countSub, deq := none } (g.pop hlt) + 1 =
      s.reserved g := by
    simp only [State.reserved, Log.pop_pushed, Log.pop_popped]
    omega
  refine ⟨hl.max, ?_, by have := hl.room; omega⟩
  show s.queue.count - 1 = _
  rw [hl.count, ← hres, Nat.add_right_comm, word_pred]

end Ledger

/-! ## The slots -/

/-- Only threads at their store matter to the slots. -/
theorem Slots.congr (hi : Slots k s g) (hhead : s'.queue.head = s.queue.head)
    (htail : s'.queue.tail = s.queue.tail) (hbuffer : s'.queue.buffer = s.queue.buffer)
    (hmask : s'.queue.bufMask = s.queue.bufMask) (hdeq : s'.deq = s.deq)
    (henq : ∀ p, isStore (s.enq p) ∨ isStore (s'.enq p) →
      s'.enq p = s.enq p ∧ s'.calls p = s.calls p)
    (hcalls : ∀ p, s.calls p ≤ s'.calls p) : Slots k s' g := by
  have htaken : s'.taken g = s.taken g := by rw [State.taken, hdeq, State.taken]
  have hstoring : ∀ c, s'.Storing c ↔ s.Storing c := by
    intro c
    constructor
    · rintro ⟨hc, hs⟩
      obtain ⟨he, hk⟩ := henq c.1 (Or.inr hs)
      exact ⟨hk ▸ hc, he ▸ hs⟩
    · rintro ⟨hc, hs⟩
      obtain ⟨he, hk⟩ := henq c.1 (Or.inl hs)
      exact ⟨hk ▸ hc, he ▸ hs⟩
  refine ⟨hmask.trans hi.bufMask, hhead.trans hi.head, ?_, hi.nodup, ?_, ?_, ?_, ?_, ?_⟩
  · rw [htail, htaken, hi.tail]
  · intro c hc
    rcases hi.called c hc with hlt | hs
    · exact Or.inl (Nat.lt_of_lt_of_le hlt (hcalls c.1))
    · exact Or.inr ((hstoring c).mpr hs)
  · intro p v h hp
    obtain ⟨he, hk⟩ := henq p (Or.inr (by rw [hp]; rfl))
    rw [htaken, State.call, hk]
    exact hi.storing p v h (he ▸ hp)
  · intro i c v hle hget
    rw [hstoring, hbuffer]
    exact hi.cell i c v (htaken ▸ hle) hget
  · intro i hle hlt
    rw [hbuffer]
    exact hi.empty i hle (htaken ▸ hlt)
  · rw [hdeq]
    exact hi.deq

/-- Nothing taken out lies behind the last ticket. -/
theorem Slots.taken_le (hi : Slots k s g) : s.taken g ≤ g.pushed.length := by
  have hle := g.popped_le
  cases hd : s.deq with
  | none => simpa [State.taken, hd] using hle
  | some v =>
      obtain ⟨c, hc⟩ := hi.deq v hd
      have := (List.getElem?_eq_some_iff.mp hc).1
      simpa [State.taken, hd] using Nat.succ_le_of_lt this

/-- A ticket names its position: no two entries of the log share a call. -/
theorem Slots.index_inj (hi : Slots k s g) {i j : Nat} {c : Call P} {v w : T}
    (h₁ : g.pushed[i]? = some (c, v)) (h₂ : g.pushed[j]? = some (c, w)) : i = j := by
  have h₁' : (g.pushed.map Prod.fst)[i]? = some c := by simp [h₁]
  have h₂' : (g.pushed.map Prod.fst)[j]? = some c := by simp [h₂]
  have hlt := (List.getElem?_eq_some_iff.mp h₁').1
  exact (List.getElem?_inj hlt hi.nodup).mp (h₁'.trans h₂'.symm)

/-- A producer about to store finds its cell empty. -/
theorem Slots.store_empty (hi : Slots k s g) {p : P} {v : T} {h : Usize}
    (hp : s.enq p = some (.store v h)) : s.queue.buffer (h &&& s.queue.bufMask) = none := by
  obtain ⟨i, hle, hget, rfl⟩ := hi.storing p v h hp
  rw [hi.bufMask]
  rcases hi.cell i _ v hle hget with ⟨-, hnone⟩ | ⟨hs, -⟩
  · exact hnone
  · exact absurd ⟨rfl, by rw [State.call, hp]; rfl⟩ hs

variable [DecidableEq P]

/-- A producer that moves between points other than the store leaves the slots alone. -/
theorem Slots.goto (hi : Slots k s g) {q : MPSCQueue T} {p : P} {pc : Enqueue T}
    (hp : isStore (s.enq p) = false) (hpc : isStore (some pc) = false)
    (hhead : q.head = s.queue.head) (htail : q.tail = s.queue.tail)
    (hbuffer : q.buffer = s.queue.buffer) (hmask : q.bufMask = s.queue.bufMask) :
    Slots k (s.goto q p pc) g := by
  refine hi.congr hhead htail hbuffer hmask rfl ?_ (fun _ => Nat.le_refl _)
  intro r hr
  have hne : r ≠ p := by
    intro heq
    subst heq
    simp [State.goto, hp, hpc] at hr
  exact ⟨Function.update_of_ne hne _ _, rfl⟩

/-- So does one that returns without having stored. -/
theorem Slots.leave (hi : Slots k s g) {q : MPSCQueue T} {p : P}
    (hp : isStore (s.enq p) = false)
    (hhead : q.head = s.queue.head) (htail : q.tail = s.queue.tail)
    (hbuffer : q.buffer = s.queue.buffer) (hmask : q.bufMask = s.queue.bufMask) :
    Slots k (s.leave q p) g := by
  refine hi.congr hhead htail hbuffer hmask rfl ?_ ?_
  · intro r hr
    have hne : r ≠ p := by
      intro heq
      subst heq
      rw [hp, State.leave_enq, Function.update_self] at hr
      simp [isStore] at hr
    exact ⟨Function.update_of_ne hne _ _, Function.update_of_ne hne _ _⟩
  · intro r
    by_cases hr : r = p
    · subst hr
      simp [State.leave]
    · simp [State.leave, Function.update_of_ne hr]

/-- `head.fetch_add(1)`: the caller of `p` becomes the last entry of the log. -/
theorem Slots.ticket (hi : Slots k s g) {p : P} {v : T} (hp : s.enq p = some (.ticket v))
    (hroom : g.pushed.length < g.popped + 2 ^ k) :
    Slots k (s.goto s.queue.headAdd p (.store v s.queue.head)) (g.push (s.call p, v)) := by
  have hnew : s.call p ∉ g.pushed.map Prod.fst := by
    intro hmem
    rcases hi.called _ hmem with hlt | hs
    · exact Nat.lt_irrefl _ hlt
    · simp [State.Storing, State.call, hp, isStore] at hs
  have htaken : (s.goto s.queue.headAdd p (.store v s.queue.head)).taken (g.push (s.call p, v)) =
      s.taken g := rfl
  have hstoring : ∀ c, (s.goto s.queue.headAdd p (.store v s.queue.head)).Storing c ↔
      s.Storing c ∨ c = s.call p :=
    fun c => Marked.begin_iff (by rw [hp]; rfl) rfl
  refine ⟨hi.bufMask, ?_, hi.tail, ?_, ?_, ?_, ?_, ?_, ?_⟩
  · show s.queue.head + 1 = _
    rw [hi.head, word_succ, Log.push_pushed, List.length_append]
    rfl
  · rw [Log.push_pushed, List.map_append, List.nodup_append]
    refine ⟨hi.nodup, List.nodup_singleton _, ?_⟩
    intro a ha b hb hab
    obtain rfl : b = s.call p := by simpa using hb
    exact hnew (hab ▸ ha)
  · intro c hc
    rw [hstoring]
    rw [Log.push_pushed, List.map_append, List.mem_append] at hc
    rcases hc with hc | hc
    · exact (hi.called c hc).imp_right Or.inl
    · exact Or.inr (Or.inr (by simpa using hc))
  · intro r w h hr
    rcases eq_some_of_update hr with ⟨rfl, ⟨⟩⟩ | ⟨-, hr⟩
    · refine ⟨g.pushed.length, hi.taken_le, ?_, hi.head⟩
      simp [State.call]
    · obtain ⟨i, hle, hget, hh⟩ := hi.storing r w h hr
      exact ⟨i, hle, Log.getElem?_push hget, hh⟩
  · intro i c w hle hget
    rw [hstoring]
    rcases Log.of_getElem?_push hget with hget | ⟨rfl, hcw⟩
    · have hne : c ≠ s.call p := by
        intro heq
        subst heq
        exact hnew (List.mem_map.mpr ⟨_, List.mem_of_getElem? hget, rfl⟩)
      simp only [hne, or_false]
      exact hi.cell i c w hle hget
    · refine Or.inl ⟨Or.inr (congrArg Prod.fst hcw), hi.empty _ (Nat.le_refl _) ?_⟩
      exact Nat.lt_of_lt_of_le hroom (by simp [State.taken])
  · intro i hle hlt
    simp only [Log.push_pushed, List.length_append, List.length_singleton] at hle
    exact hi.empty i (by omega) hlt
  · intro w hw
    obtain ⟨c, hc⟩ := hi.deq w hw
    exact ⟨c, Log.getElem?_push hc⟩

/-- The store: the item of `p` appears in the cell of its ticket, which was empty. -/
theorem Slots.store (hi : Slots k s g) (hk : k ≤ 64) {p : P} {v : T} {h : Usize}
    (hp : s.enq p = some (.store v h)) (hroom : g.pushed.length ≤ g.popped + 2 ^ k) :
    Slots k (s.leave (s.queue.store h v) p) g := by
  obtain ⟨i, hle, hget, rfl⟩ := hi.storing p v h hp
  have hlt := (List.getElem?_eq_some_iff.mp hget).1
  have hpop : g.popped ≤ s.taken g := by simp [State.taken]
  have hbuf : (s.queue.store (BitVec.ofNat 64 i) v).buffer =
      Function.update s.queue.buffer (slot 64 k i) (some v) := by
    rw [MPSCQueue.store, hi.bufMask]
    rfl
  have hstoring : ∀ c, (s.leave (s.queue.store (BitVec.ofNat 64 i) v) p).Storing c ↔
      s.Storing c ∧ c ≠ s.call p :=
    fun c => Marked.leave_iff rfl
  -- the other positions of the window have other cells
  have hother : ∀ j, s.taken g ≤ j → j < s.taken g + 2 ^ k → j ≠ i →
      (s.queue.store (BitVec.ofNat 64 i) v).buffer (slot 64 k j) =
        s.queue.buffer (slot 64 k j) := by
    intro j hj hj' hne
    rw [hbuf]
    refine Function.update_of_ne ?_ _ _
    intro he
    exact hne (slot_inj_window hk hj hj' hle (by omega) he)
  refine ⟨hi.bufMask, hi.head, hi.tail, hi.nodup, ?_, ?_, ?_, ?_, hi.deq⟩
  · intro c hc
    exact Marked.over_or_leave rfl (hi.called c hc)
  · intro r w h hr
    rcases eq_some_of_update hr with ⟨rfl, ⟨⟩⟩ | ⟨hrp, hr⟩
    obtain ⟨j, hj, hgetj, hh⟩ := hi.storing r w h hr
    exact ⟨j, hj, by simpa [State.call, Function.update_of_ne hrp] using hgetj, hh⟩
  · intro j c w hj hgetj
    rw [hstoring]
    have hjlt := (List.getElem?_eq_some_iff.mp hgetj).1
    by_cases hji : j = i
    · subst hji
      obtain ⟨rfl, rfl⟩ : s.call p = c ∧ v = w := by simpa using hget.symm.trans hgetj
      refine Or.inr ⟨fun h => h.2 rfl, ?_⟩
      rw [State.leave_queue, hbuf, Function.update_self]
    · have hc : c ≠ s.call p := by
        intro heq
        subst heq
        exact hji (hi.index_inj hgetj hget)
      rw [State.leave_queue, hother j hj (by omega) hji]
      simpa [hc] using hi.cell j c w hj hgetj
  · intro j hj hj'
    have hne : j ≠ i := by
      have : i < j := Nat.lt_of_lt_of_le hlt hj
      omega
    rw [State.leave_queue, hother j (Nat.le_trans hi.taken_le hj) hj' hne]
    exact hi.empty j hj hj'

/-! ### The consumer -/

omit [DecidableEq P] in
/-- The consumer's exchange finds an item exactly when the next ticket's item has been stored. -/
theorem Slots.front (hi : Slots k s g) (hd : s.deq = none) {ret : T}
    (hret : s.queue.buffer s.queue.tail = some ret) :
    ∃ c, g.pushed[g.popped]? = some (c, ret) ∧ ¬ s.Storing c := by
  have htaken : s.taken g = g.popped := by simp [State.taken, hd]
  rw [hi.tail, htaken] at hret
  have hlt : g.popped < g.pushed.length := by
    apply Nat.lt_of_not_le
    intro hge
    rw [hi.empty _ hge (by rw [htaken]; exact Nat.lt_add_of_pos_right (Nat.two_pow_pos k))] at hret
    cases hret
  obtain ⟨⟨c, v⟩, hget⟩ : ∃ a, g.pushed[g.popped]? = some a :=
    ⟨_, List.getElem?_eq_getElem hlt⟩
  rcases hi.cell _ c v (Nat.le_of_eq htaken) hget with ⟨-, hcell⟩ | ⟨hs, hcell⟩
  · rw [hcell] at hret
    cases hret
  · rw [hcell] at hret
    cases hret
    exact ⟨c, hget, hs⟩

omit [DecidableEq P] in
/-- The exchange on a cell that is empty changes nothing. -/
theorem clear_of_empty {q : MPSCQueue T} (h : q.buffer q.tail = none) : q.clear = q := by
  rw [clear, ← h, Function.update_eq_self]

omit [DecidableEq P] in
/-- The exchange that finds an item empties its cell and moves the consumer past it; the cell now
belongs to the lap that has just been entered. -/
theorem Slots.take (hi : Slots k s g) (hk : k ≤ 64) (hd : s.deq = none) {ret : T}
    (hret : s.queue.buffer s.queue.tail = some ret) (hroom : g.pushed.length ≤ g.popped + 2 ^ k) :
    Slots k { s with queue := s.queue.clear.advance, deq := some ret } g := by
  obtain ⟨c, hget, hs⟩ := hi.front hd hret
  have hlt := (List.getElem?_eq_some_iff.mp hget).1
  have htaken : s.taken g = g.popped := by simp [State.taken, hd]
  have hbuf : s.queue.clear.advance.buffer =
      Function.update s.queue.buffer (slot 64 k g.popped) none := by
    show Function.update s.queue.buffer s.queue.tail none = _
    rw [hi.tail, htaken]
  have hother : ∀ j, g.popped + 1 ≤ j → j < g.popped + 2 ^ k →
      s.queue.clear.advance.buffer (slot 64 k j) = s.queue.buffer (slot 64 k j) := by
    intro j hj hj'
    rw [hbuf]
    refine Function.update_of_ne ?_ _ _
    intro he
    have := slot_inj_window hk (show g.popped ≤ j by omega) hj' (Nat.le_refl _) (by omega) he
    omega
  refine ⟨hi.bufMask, hi.head, ?_, hi.nodup, hi.called, ?_, ?_, ?_, ?_⟩
  · show (s.queue.tail + 1) &&& s.queue.bufMask = slot 64 k (g.popped + 1)
    rw [hi.tail, htaken, hi.bufMask, slot_succ_mask hk]
  · intro p v h hp
    obtain ⟨i, hle, hgeti, hh⟩ := hi.storing p v h hp
    refine ⟨i, ?_, hgeti, hh⟩
    -- the item just taken was stored, so it is not `p`'s
    have hne : i ≠ g.popped := by
      intro heq
      subst heq
      have hc : c = s.call p := congrArg Prod.fst (Option.some.inj (hget.symm.trans hgeti))
      apply hs
      rw [hc]
      exact ⟨rfl, by rw [State.call, hp]; rfl⟩
    show g.popped + 1 ≤ i
    omega
  · intro j c' v' hj hgetj
    have hjlt := (List.getElem?_eq_some_iff.mp hgetj).1
    change g.popped + 1 ≤ j at hj
    show (s.Storing c' ∧ s.queue.clear.advance.buffer _ = none) ∨
      (¬ s.Storing c' ∧ s.queue.clear.advance.buffer _ = some v')
    rw [hother j hj (by omega)]
    exact hi.cell j c' v' (by omega) hgetj
  · intro j hj hj'
    change j < g.popped + 1 + 2 ^ k at hj'
    show s.queue.clear.advance.buffer _ = none
    by_cases hlast : j = g.popped + 2 ^ k
    · rw [hlast, slot_add_lap hk, hbuf, Function.update_self]
    · rw [hother j (by omega) (by omega)]
      exact hi.empty j hj (by omega)
  · intro v hv
    obtain rfl : ret = v := by simpa using hv
    exact ⟨c, hget⟩

omit [DecidableEq P] in
/-- Releasing the slot: the log's cursor catches up with the consumer. -/
theorem Slots.release (hi : Slots k s g) {ret : T} (hd : s.deq = some ret)
    (hlt : g.popped < g.pushed.length) :
    Slots k { s with queue := s.queue.countSub, deq := none } (g.pop hlt) := by
  have htaken : State.taken { s with queue := s.queue.countSub, deq := none } (g.pop hlt) =
      s.taken g := by simp [State.taken, hd]
  refine ⟨hi.bufMask, hi.head, ?_, hi.nodup, hi.called, ?_, ?_, ?_, ?_⟩
  · rw [htaken]
    exact hi.tail
  · rw [htaken]
    exact hi.storing
  · rw [htaken]
    exact hi.cell
  · rw [htaken]
    exact hi.empty
  · intro v hv
    cases hv

/-! ## Every step keeps the invariant -/

variable [Fintype P]

omit [DecidableEq P] in
theorem init_inv (capacity : Usize) (hcap : capacity = BitVec.ofNat 64 (2 ^ k)) :
    Inv k (State.init (new capacity) : State T P) Log.empty := by
  have hticket : tally (fun _ : P => (none : Option (Enqueue T))) isTicket = 0 :=
    tally_eq_zero fun _ => rfl
  have hundo : tally (fun _ : P => (none : Option (Enqueue T))) isUndo = 0 :=
    tally_eq_zero fun _ => rfl
  have hmask : capacity - 1 = BitVec.ofNat 64 (2 ^ k - 1) := by
    rw [hcap]
    exact word_two_pow_pred 64 k
  refine ⟨⟨hcap, ?_, ?_⟩, ⟨hmask, rfl, ?_, List.nodup_nil, ?_, ?_, ?_, fun _ _ _ => rfl, ?_⟩⟩
  · simp [State.reserved, State.init, hticket, hundo, new]
  · simp [State.reserved, State.init, hticket]
  · simp [State.taken, State.init, new, slot]
  all_goals simp [State.init]

omit [DecidableEq P] in
/-- What a reservation that has not run out of room still leaves free. -/
theorem Inv.room (hi : Inv k s g) : g.pushed.length ≤ g.popped + 2 ^ k := by
  have := hi.ledger.room
  rw [State.reserved] at this
  omega

theorem enqueueStep_inv (hfit : 2 ^ k + Fintype.card P < 2 ^ 64) (hk : k ≤ 64) (hi : Inv k s g)
    {p : P} {pc : Enqueue T} (hp : s.enq p = some pc) :
    Run.Matches (Inv k) (Log.Step Prod.snd) g (enqueueStep s p pc).2
      (enqueueStep s p pc).1.logOp? := by
  cases pc with
  | load v =>
      have hplain : isTicket (s.enq p) = false ∧ isUndo (s.enq p) = false := by
        rw [hp]
        exact ⟨rfl, rfl⟩
      have hst : isStore (s.enq p) = false := by rw [hp]; rfl
      cases v with
      | none => exact ⟨hi.ledger.leave hplain rfl rfl, hi.slots.leave hst rfl rfl rfl rfl⟩
      | some v =>
          rw [enqueueStep]
          split
          · exact ⟨hi.ledger.leave hplain rfl rfl, hi.slots.leave hst rfl rfl rfl rfl⟩
          · exact ⟨hi.ledger.goto hplain ⟨rfl, rfl⟩, hi.slots.goto hst rfl rfl rfl rfl rfl⟩
  | reserve v =>
      have hst : isStore (s.enq p) = false := by rw [hp]; rfl
      rw [enqueueStep]
      split
      · exact ⟨hi.ledger.reject hp, hi.slots.goto hst rfl rfl rfl rfl rfl⟩
      · next hlt => exact ⟨hi.ledger.accept hfit hp hlt, hi.slots.goto hst rfl rfl rfl rfl rfl⟩
  | undo v =>
      have hst : isStore (s.enq p) = false := by rw [hp]; rfl
      exact ⟨hi.ledger.undo hp, hi.slots.leave hst rfl rfl rfl rfl⟩
  | ticket v =>
      exact ⟨_, .push g (s.call p, v), hi.ledger.ticket hp,
        hi.slots.ticket hp (hi.ledger.ticket_room hp)⟩
  | store v h =>
      have hplain : isTicket (s.enq p) = false ∧ isUndo (s.enq p) = false := by
        rw [hp]
        exact ⟨rfl, rfl⟩
      exact ⟨hi.ledger.leave hplain rfl rfl, hi.slots.store hk hp hi.room⟩

omit [DecidableEq P] in
theorem dequeueStep_inv (hk : k ≤ 64) (hi : Inv k s g) :
    Run.Matches (Inv k) (Log.Step Prod.snd) g (dequeueStep s).2 (dequeueStep s).1.logOp? := by
  rw [dequeueStep]
  cases hd : s.deq with
  | none =>
      cases hret : s.queue.buffer s.queue.tail with
      | none =>
          show Inv k ⟨s.queue.clear, s.calls, s.enq, none⟩ g
          rw [clear_of_empty hret, ← hd]
          exact hi
      | some ret =>
          exact ⟨hi.ledger.congr rfl rfl rfl rfl, hi.slots.take hk hd hret hi.room⟩
  | some ret =>
      obtain ⟨c, hget⟩ := hi.slots.deq ret hd
      obtain ⟨hlt, hc⟩ := List.getElem?_eq_some_iff.mp hget
      refine ⟨g.pop hlt, ?_, hi.ledger.release hlt, hi.slots.release hd hlt⟩
      have hstep : Log.Step Prod.snd g (.pop (Prod.snd g.pushed[g.popped])) (g.pop hlt) :=
        .pop g hlt
      rwa [hc] at hstep

/-- **One step.** The invariant is kept, and what happens to the log is what the event says. -/
theorem step_inv (hfit : 2 ^ k + Fintype.card P < 2 ^ 64) (hk : k ≤ 64) {e : Event T P}
    (hi : Inv k s g) (h : Step s e s') :
    Run.Matches (Inv k) (Log.Step Prod.snd) g s' e.logOp? := by
  cases h with
  | call v hp =>
      refine ⟨hi.ledger.goto ?_ ⟨rfl, rfl⟩, hi.slots.goto ?_ rfl rfl rfl rfl rfl⟩
      · rw [hp]
        exact ⟨rfl, rfl⟩
      · rw [hp]
        rfl
  | enqueue hp => exact enqueueStep_inv hfit hk hi hp
  | dequeue => exact dequeueStep_inv hk hi

end Shclog.MPSCQueue
