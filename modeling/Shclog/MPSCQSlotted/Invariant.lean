import Shclog.MPSCQSlotted.Basic
import Mathlib.Data.Fintype.Card
import Shclog.Lib.Calls

/-! # The invariant of `MPSCQSlotted`

As for `MPSCQueue`, a reachable state is read against the log of its tickets: position `i` of the
log is the `i`-th `head.fetch_add`, and the cursor counts the items taken out. The cells serve the
lap of positions from the cursor on, and a cell's stamp says how far its position has come: `i`
while the item of position `i` is on its way, `i + 1` once it is there. Producers whose position is
beyond that lap are spinning, and there are no more of them than there are threads, which is what
keeps a stamp from being mistaken for one of another turn of the counter. -/

namespace Shclog.MPSCQSlotted

open Lib

variable {T P : Type} {k : Nat} {s s' : State T P} {g : Log (Call P × Option T)}

/-! ## Where threads stand -/

/-- The pointer and the ticket of a producer that has one. -/
def Enqueue.entry? : Enqueue T → Option (Option T × Usize)
  | .ticket _ => none
  | .spin v pos | .write v pos | .publish v pos => some (v, pos)

def inFlight (pc : Option (Enqueue T)) : Bool := (pc.bind Enqueue.entry?).isSome

def isSpin : Option (Enqueue T) → Bool
  | some (.spin _ _) => true
  | _ => false

namespace State

/-- The call `c` has its ticket and has not published its item. -/
def InFlight (s : State T P) (c : Call P) : Prop := c.2 = s.calls c.1 ∧ inFlight (s.enq c.1)

def Spinning (s : State T P) (c : Call P) : Prop := c.2 = s.calls c.1 ∧ isSpin (s.enq c.1)

/-- The item of position `i` is in its cell for the consumer to take. -/
def Published (s : State T P) (g : Log (Call P × Option T)) (i : Nat) : Prop :=
  ∃ c v, g.pushed[i]? = some (c, v) ∧ ¬ s.InFlight c

end State

structure Inv (k : Nat) (s : State T P) (g : Log (Call P × Option T)) : Prop where
  head : s.queue.head = BitVec.ofNat 64 g.pushed.length
  tail : s.queue.tail = BitVec.ofNat 64 g.popped
  /-- every ticket belongs to one call -/
  nodup : (g.pushed.map Prod.fst).Nodup
  /-- a call that has a ticket is over, or on its way to publish -/
  called : ∀ c ∈ g.pushed.map Prod.fst, c.2 < s.calls c.1 ∨ s.InFlight c
  /-- a ticket on its way has not been passed by the consumer, and leaves the spin only for a
  position of the lap the cells serve -/
  entry : ∀ p v pos, (s.enq p).bind Enqueue.entry? = some (v, pos) →
    ∃ i, g.popped ≤ i ∧ g.pushed[i]? = some (s.call p, v) ∧ pos = BitVec.ofNat 64 i ∧
      (isSpin (s.enq p) = false → i < g.popped + 2 ^ k)
  written : ∀ p v i, s.enq p = some (.publish v (BitVec.ofNat 64 i)) →
    (s.queue.buffer (slot 64 k i)).data = v
  /-- beyond that lap everybody spins -/
  ahead : ∀ i c v, g.popped + 2 ^ k ≤ i → g.pushed[i]? = some (c, v) → s.Spinning c
  seq : ∀ i, g.popped ≤ i → i < g.popped + 2 ^ k →
    (s.Published g i ∧ (s.queue.buffer (slot 64 k i)).seq = BitVec.ofNat 64 (i + 1)) ∨
      (¬ s.Published g i ∧ (s.queue.buffer (slot 64 k i)).seq = BitVec.ofNat 64 i)
  data : ∀ i c v, g.popped ≤ i → g.pushed[i]? = some (c, v) → ¬ s.InFlight c →
    (s.queue.buffer (slot 64 k i)).data = v
  read : s.deq = some .read → s.Published g g.popped
  release : ∀ v, s.deq = some (.release v) →
    ∃ c, g.pushed[g.popped]? = some (c, v) ∧ ¬ s.InFlight c

/-! ## Consequences -/

theorem mask_eq : mask (BitVec.ofNat 64 (2 ^ k)) = BitVec.ofNat 64 (2 ^ k - 1) :=
  word_two_pow_pred 64 k

theorem slot_eq (i : Nat) :
    BitVec.ofNat 64 i &&& mask (BitVec.ofNat 64 (2 ^ k)) = slot 64 k i := by
  rw [mask_eq, slot]

theorem inFlight_of_spin {pc : Option (Enqueue T)} (h : isSpin pc) : inFlight pc := by
  cases pc with
  | none => cases h
  | some pc => cases pc <;> first | rfl | cases h

theorem State.Spinning.inFlight {c : Call P} (h : s.Spinning c) : s.InFlight c :=
  ⟨h.1, inFlight_of_spin h.2⟩

/-- A ticket names its position: no two entries of the log share a call. -/
theorem Inv.index_inj (hi : Inv k s g) {i j : Nat} {c : Call P} {v w : Option T}
    (h₁ : g.pushed[i]? = some (c, v)) (h₂ : g.pushed[j]? = some (c, w)) : i = j := by
  have h₁' : (g.pushed.map Prod.fst)[i]? = some c := by simp [h₁]
  have h₂' : (g.pushed.map Prod.fst)[j]? = some c := by simp [h₂]
  have hlt := (List.getElem?_eq_some_iff.mp h₁').1
  exact (List.getElem?_inj hlt hi.nodup).mp (h₁'.trans h₂'.symm)

theorem Inv.inFlight_call {p : P} {v : Option T} {pos : Usize}
    (hp : (s.enq p).bind Enqueue.entry? = some (v, pos)) : s.InFlight (s.call p) :=
  ⟨rfl, by rw [inFlight, State.call, hp]; rfl⟩

/-- The position of a ticket on its way is not published. -/
theorem Inv.not_published {p : P} {v : Option T} {pos : Usize} {i : Nat}
    (hp : (s.enq p).bind Enqueue.entry? = some (v, pos))
    (hget : g.pushed[i]? = some (s.call p, v)) : ¬ s.Published g i := by
  rintro ⟨c, w, hc, hno⟩
  rw [hget] at hc
  cases hc
  exact hno (Inv.inFlight_call hp)

/-- What is published lies within the lap that the cells serve. -/
theorem Inv.published_lt (hi : Inv k s g) {i : Nat} (h : s.Published g i) :
    i < g.popped + 2 ^ k := by
  obtain ⟨c, v, hc, hno⟩ := h
  apply Nat.lt_of_not_le
  intro hle
  exact hno (hi.ahead i c v hle hc).inFlight

/-- Tickets beyond the lap are held by different producers, so the log does not run away. -/
theorem Inv.length_le [Fintype P] (hi : Inv k s g) :
    g.pushed.length ≤ g.popped + 2 ^ k + Fintype.card P := by
  have hspin : ∀ a ∈ g.pushed.drop (g.popped + 2 ^ k), a.1.2 = s.calls a.1.1 := by
    intro a ha
    obtain ⟨j, hj⟩ := List.mem_iff_getElem?.mp ha
    rw [List.getElem?_drop] at hj
    exact (hi.ahead _ a.1 a.2 (Nat.le_add_right _ _) hj).1
  have hnodup : ((g.pushed.drop (g.popped + 2 ^ k)).map fun a => a.1.1).Nodup := by
    refine List.Nodup.of_map (fun p => (p, s.calls p)) ?_
    rw [List.map_map]
    have hmap : (g.pushed.drop (g.popped + 2 ^ k)).map ((fun p => (p, s.calls p)) ∘ fun a => a.1.1) =
        (g.pushed.drop (g.popped + 2 ^ k)).map Prod.fst :=
      List.map_congr_left fun a ha => Prod.ext rfl (hspin a ha).symm
    rw [hmap, List.map_drop]
    exact hi.nodup.sublist (List.drop_sublist _ _)
  have hlen := hnodup.length_le_card
  rw [List.length_map, List.length_drop] at hlen
  omega

/-- **The stamp tells a waiting producer the truth**: it is never ahead of the producer's ticket,
and equal to it exactly when the cell has come round to it. -/
theorem Inv.stamp [Fintype P] (hi : Inv k s g) (hfit : 2 ^ k + Fintype.card P < 2 ^ 64) (hk : k ≤ 64)
    (hk1 : 1 ≤ k) {p : P} {v : Option T} {pos : Usize} {i : Nat}
    (hp : s.enq p = some (.spin v pos)) (hpop : g.popped ≤ i)
    (hget : g.pushed[i]? = some (s.call p, v)) :
    ∃ m, m ≤ i ∧ i < m + 2 ^ 64 ∧
      (s.queue.buffer (slot 64 k i)).seq = BitVec.ofNat 64 m ∧ (m = i ↔ i < g.popped + 2 ^ k) := by
  have hlen := hi.length_le
  have hlt := (List.getElem?_eq_some_iff.mp hget).1
  rcases Nat.lt_or_ge i (g.popped + 2 ^ k) with hin | hout
  · -- served by the cells: the item is not there yet, so the stamp is still the position
    have hentry : (s.enq p).bind Enqueue.entry? = some (v, pos) := by
      rw [hp]
      rfl
    have hno := Inv.not_published hentry hget
    rcases hi.seq i hpop hin with ⟨hpub, -⟩ | ⟨-, hseq⟩
    · exact absurd hpub hno
    · exact ⟨i, Nat.le_refl i, by omega, hseq, iff_of_true rfl hin⟩
  · -- the cell still serves an earlier position `m`
    obtain ⟨m, hm, hm', -, hslot⟩ := exists_window_rep (w := 64) hk hpop
    have hlap : 2 ≤ 2 ^ k := Nat.pow_le_pow_right (show 0 < 2 by omega) hk1
    have hmi : m + 1 ≤ i := by omega
    rcases hi.seq m hm hm' with ⟨-, hseq⟩ | ⟨-, hseq⟩
    · refine ⟨m + 1, hmi, by omega, by rw [← hslot, hseq], ?_⟩
      refine iff_of_false ?_ (by omega)
      intro heq
      subst heq
      exact word_succ_ne_of_slot_eq hk hk1 hslot rfl
    · exact ⟨m, by omega, by omega, by rw [← hslot, hseq], by omega⟩

theorem Inv.stamp_eq_iff [Fintype P] (hi : Inv k s g) (hfit : 2 ^ k + Fintype.card P < 2 ^ 64)
    (hk : k ≤ 64) (hk1 : 1 ≤ k) {p : P} {v : Option T} {pos : Usize} {i : Nat}
    (hp : s.enq p = some (.spin v pos)) (hpop : g.popped ≤ i)
    (hget : g.pushed[i]? = some (s.call p, v)) :
    (s.queue.buffer (slot 64 k i)).seq = BitVec.ofNat 64 i ↔ i < g.popped + 2 ^ k := by
  obtain ⟨m, hle, hlt, hseq, hiff⟩ := hi.stamp hfit hk hk1 hp hpop hget
  rw [hseq, ← hiff]
  refine ⟨fun he => word_inj hle (by omega) he, fun he => by rw [he]⟩

/-! ## Producers -/

section Producers

variable [DecidableEq P] {q : MPSCQSlotted T} {p : P} {pc : Enqueue T}

theorem State.inFlight_goto (h : inFlight (some pc) = inFlight (s.enq p)) (c : Call P) :
    (s.goto q p pc).InFlight c ↔ s.InFlight c :=
  Marked.goto_iff h

omit [DecidableEq P] in
theorem State.published_congr (h : ∀ c, s'.InFlight c ↔ s.InFlight c) (i : Nat) :
    s'.Published g i ↔ s.Published g i := by
  simp only [State.Published, h]

omit [DecidableEq P] in
/-- The entry of a call that is over is not the one of any producer's present call. -/
theorem Inv.ne_call (hi : Inv k s g) {i : Nat} {c : Call P} {v : Option T}
    (hget : g.pushed[i]? = some (c, v)) (hno : ¬ s.InFlight c) (p : P) : c ≠ s.call p := by
  intro heq
  subst heq
  rcases hi.called _ (List.mem_map.mpr ⟨_, List.mem_of_getElem? hget, rfl⟩) with hlt | hs
  · exact Nat.lt_irrefl _ hlt
  · exact hno hs

/-- A producer moves on without taking a ticket or publishing, and not into the spin. It may write
the data of its own cell. -/
theorem Inv.goto (hi : Inv k s g) (hhead : q.head = s.queue.head) (htail : q.tail = s.queue.tail)
    (hseq : ∀ i, (q.buffer i).seq = (s.queue.buffer i).seq)
    (hdata : ∀ j c v, g.popped ≤ j → j < g.popped + 2 ^ k → g.pushed[j]? = some (c, v) →
      c ≠ s.call p → (q.buffer (slot 64 k j)).data = (s.queue.buffer (slot 64 k j)).data)
    (hfl : inFlight (some pc) = inFlight (s.enq p))
    (hentry : ∀ v pos, pc.entry? = some (v, pos) → ∃ i, g.popped ≤ i ∧
      g.pushed[i]? = some (s.call p, v) ∧ pos = BitVec.ofNat 64 i ∧ i < g.popped + 2 ^ k)
    (hwritten : ∀ v i, pc = .publish v (BitVec.ofNat 64 i) → (q.buffer (slot 64 k i)).data = v) :
    Inv k (s.goto q p pc) g := by
  have hfl' := State.inFlight_goto (q := q) hfl
  have hpub := State.published_congr (g := g) hfl'
  refine ⟨hhead.trans hi.head, htail.trans hi.tail, hi.nodup, ?_, ?_, ?_, ?_, ?_, ?_, ?_, ?_⟩
  · intro c hc
    rw [hfl']
    exact hi.called c hc
  · intro r w pos hr
    by_cases hrp : r = p
    · subst hrp
      rw [State.goto_enq, Function.update_self] at hr
      obtain ⟨i, hle, hget, hpos, hin⟩ := hentry w pos hr
      exact ⟨i, hle, hget, hpos, fun _ => hin⟩
    · rw [State.goto_enq, Function.update_of_ne hrp] at hr ⊢
      exact hi.entry r w pos hr
  · intro r w i hr
    rcases eq_some_of_update hr with ⟨rfl, hpc⟩ | ⟨hrp, hr⟩
    · exact hwritten w i (Option.some.inj hpc)
    · obtain ⟨j, hle, hget, hpos, hin⟩ := hi.entry r w (BitVec.ofNat 64 i) (by rw [hr]; rfl)
      have hslot : slot 64 k i = slot 64 k j := by rw [slot, hpos, slot]
      have hne : s.call r ≠ s.call p := fun h => hrp (congrArg Prod.fst h)
      have hold := hi.written r w i hr
      rw [hslot] at hold ⊢
      rw [State.goto_queue, hdata j _ w hle (hin (by rw [hr]; rfl)) hget hne]
      exact hold
  · intro j c w hle hget
    obtain ⟨hc2, hsp⟩ := hi.ahead j c w hle hget
    have hne : c.1 ≠ p := by
      intro heq
      subst heq
      -- `p` would hold two tickets, one within the lap and one beyond it
      have hflp : (pc.entry?).isSome := hfl.trans (inFlight_of_spin hsp)
      obtain ⟨⟨x, pos⟩, hx⟩ := Option.isSome_iff_exists.mp hflp
      obtain ⟨i, -, hgeti, -, hin⟩ := hentry x pos hx
      have hij : i = j := hi.index_inj (c := c) (w := w) (by rw [hgeti, State.call, ← hc2]) hget
      omega
    refine ⟨hc2, ?_⟩
    rw [State.goto_enq, Function.update_of_ne hne]
    exact hsp
  · intro i hle hlt
    rw [hpub, State.goto_queue, hseq]
    exact hi.seq i hle hlt
  · intro i c w hle hget hno
    rw [hfl'] at hno
    have hin := hi.published_lt ⟨c, w, hget, hno⟩
    rw [State.goto_queue, hdata i c w hle hin hget (hi.ne_call hget hno p)]
    exact hi.data i c w hle hget hno
  · intro hd
    rw [hpub]
    exact hi.read hd
  · intro w hd
    obtain ⟨c, hget, hno⟩ := hi.release w hd
    exact ⟨c, hget, by rwa [hfl']⟩

/-- A producer enters `enqueue`. -/
theorem Inv.call (hi : Inv k s g) (v : Option T) (hp : s.enq p = none) :
    Inv k (s.goto s.queue p (.ticket v)) g := by
  refine hi.goto rfl rfl (fun _ => rfl) (fun _ _ _ _ _ _ _ => rfl) (by rw [hp]; rfl) ?_ ?_
  · intro w pos h
    cases h
  · intro w i h
    cases h

theorem State.inFlight_ticket {v w : Option T} {pos : Usize} (hp : s.enq p = some (.ticket v))
    (c : Call P) : (s.goto q p (.spin w pos)).InFlight c ↔ s.InFlight c ∨ c = s.call p :=
  Marked.begin_iff (by rw [hp]; rfl) rfl

omit [DecidableEq P] in
/-- A call that has no ticket yet has no entry. -/
theorem Inv.fresh (hi : Inv k s g) {v w : Option T} {i : Nat} {c : Call P}
    (hp : s.enq p = some (.ticket v)) (hget : g.pushed[i]? = some (c, w)) : c ≠ s.call p := by
  rintro rfl
  rcases hi.called _ (List.mem_map.mpr ⟨_, List.mem_of_getElem? hget, rfl⟩) with hlt | hs
  · exact Nat.lt_irrefl _ hlt
  · have := hs.2
    rw [State.call, hp] at this
    cases this

theorem Inv.published_ticket (hi : Inv k s g) {v : Option T} {pos : Usize}
    (hp : s.enq p = some (.ticket v)) (i : Nat) :
    (s.goto q p (.spin v pos)).Published (g.push (s.call p, v)) i ↔ s.Published g i := by
  constructor
  · rintro ⟨c, w, hget, hno⟩
    rw [State.inFlight_ticket hp, not_or] at hno
    rcases Log.of_getElem?_push hget with hget | ⟨-, hcw⟩
    · exact ⟨c, w, hget, hno.1⟩
    · exact absurd (congrArg Prod.fst hcw) hno.2
  · rintro ⟨c, w, hget, hno⟩
    refine ⟨c, w, Log.getElem?_push hget, ?_⟩
    rw [State.inFlight_ticket hp, not_or]
    exact ⟨hno, hi.fresh hp hget⟩

/-- `head.fetch_add(1)`: the caller of `p` becomes the last entry of the log. -/
theorem Inv.ticket (hi : Inv k s g) {v : Option T} (hp : s.enq p = some (.ticket v)) :
    Inv k (s.goto s.queue.headAdd p (.spin v s.queue.head)) (g.push (s.call p, v)) := by
  -- entries older than `p`'s stand where they stood
  have hfl : ∀ c, (s.goto s.queue.headAdd p (.spin v s.queue.head)).InFlight c ↔
      s.InFlight c ∨ c = s.call p := State.inFlight_ticket hp
  have hpub : ∀ i, (s.goto s.queue.headAdd p (.spin v s.queue.head)).Published
      (g.push (s.call p, v)) i ↔ s.Published g i := hi.published_ticket hp
  refine ⟨?_, hi.tail, ?_, ?_, ?_, ?_, ?_, ?_, ?_, ?_, ?_⟩
  · show s.queue.head + 1 = _
    rw [hi.head, word_succ, Log.push_pushed, List.length_append]
    rfl
  · rw [Log.push_pushed, List.map_append, List.nodup_append]
    refine ⟨hi.nodup, List.nodup_singleton _, ?_⟩
    intro a ha b hb hab
    obtain rfl : b = s.call p := by simpa using hb
    obtain ⟨⟨c, w⟩, hmem, rfl⟩ := List.mem_map.mp ha
    obtain ⟨i, hget⟩ := List.mem_iff_getElem?.mp hmem
    exact hi.fresh hp hget hab
  · intro c hc
    rw [hfl]
    rw [Log.push_pushed, List.map_append, List.mem_append] at hc
    rcases hc with hc | hc
    · exact (hi.called c hc).imp_right Or.inl
    · exact Or.inr (Or.inr (by simpa using hc))
  · intro r w pos hr
    by_cases hrp : r = p
    · subst hrp
      rw [State.goto_enq, Function.update_self] at hr ⊢
      cases hr
      refine ⟨g.pushed.length, g.popped_le, ?_, hi.head, fun h => by cases h⟩
      simp [State.call]
    · rw [State.goto_enq, Function.update_of_ne hrp] at hr ⊢
      obtain ⟨i, hle, hget, hpos, hin⟩ := hi.entry r w pos hr
      exact ⟨i, hle, Log.getElem?_push hget, hpos, hin⟩
  · intro r w i hr
    rcases eq_some_of_update hr with ⟨rfl, ⟨⟩⟩ | ⟨-, hr⟩
    exact hi.written r w i hr
  · intro i c w hle hget
    rcases Log.of_getElem?_push hget with hget | ⟨-, hcw⟩
    · obtain ⟨hc2, hspin⟩ := hi.ahead i c w hle hget
      have hne : c.1 ≠ p := by
        intro hcp
        rw [hcp] at hc2
        exact hi.fresh hp hget (Prod.ext hcp hc2)
      refine ⟨hc2, ?_⟩
      rw [State.goto_enq, Function.update_of_ne hne]
      exact hspin
    · obtain rfl : c = s.call p := congrArg Prod.fst hcw
      exact ⟨rfl, by simp [State.call, isSpin]⟩
  · intro i hle hlt
    rw [hpub]
    exact hi.seq i hle hlt
  · intro i c w hle hget hno
    rw [hfl, not_or] at hno
    rcases Log.of_getElem?_push hget with hget | ⟨-, hcw⟩
    · exact hi.data i c w hle hget hno.1
    · exact absurd (congrArg Prod.fst hcw) hno.2
  · intro hd
    rw [Log.push_popped, hpub]
    exact hi.read hd
  · intro w hd
    obtain ⟨c, hget, hno⟩ := hi.release w hd
    refine ⟨c, Log.getElem?_push hget, ?_⟩
    rw [hfl, not_or]
    exact ⟨hno, hi.fresh hp hget⟩

/-- A producer leaves the spin: its position is one the cells serve. -/
theorem Inv.pass (hi : Inv k s g) {v : Option T} {i : Nat}
    (hp : s.enq p = some (.spin v (BitVec.ofNat 64 i))) (hpop : g.popped ≤ i)
    (hget : g.pushed[i]? = some (s.call p, v)) (hin : i < g.popped + 2 ^ k) :
    Inv k (s.goto s.queue p (.write v (BitVec.ofNat 64 i))) g := by
  refine hi.goto rfl rfl (fun _ => rfl) (fun _ _ _ _ _ _ _ => rfl) (by rw [hp]; rfl) ?_ ?_
  · intro w pos h
    cases h
    exact ⟨i, hpop, hget, rfl, hin⟩
  · intro w j h
    cases h

/-- The item is written into the cell; the cells of the rest of the lap are others. -/
theorem Inv.write (hi : Inv k s g) (hk : k ≤ 64) {v : Option T} {pos : Usize}
    (hp : s.enq p = some (.write v pos)) :
    Inv k (s.goto (s.queue.setData (pos &&& mask (BitVec.ofNat 64 (2 ^ k))) v) p
      (.publish v pos)) g := by
  obtain ⟨i, hpop, hget, rfl, hin⟩ := hi.entry p v pos (by rw [hp]; rfl)
  have hin' := hin (by rw [hp]; rfl)
  rw [slot_eq]
  refine hi.goto rfl rfl (fun _ => setData_seq) ?_ (by rw [hp]; rfl) ?_ ?_
  · intro j c w hle hlt hgetj hne
    have hslot : slot 64 k j ≠ slot 64 k i := by
      intro h
      have hji := slot_inj_window hk hle hlt hpop hin' h
      subst hji
      exact hne (congrArg Prod.fst (Option.some.inj (hgetj.symm.trans hget)))
    rw [setData_of_ne hslot]
  · intro w pos h
    cases h
    exact ⟨i, hpop, hget, rfl, hin'⟩
  · intro w j h
    obtain ⟨rfl, hij⟩ := Enqueue.publish.inj h
    have hslot : slot 64 k j = slot 64 k i := by rw [slot, ← hij, slot]
    rw [hslot, setData_self]

theorem State.inFlight_leave (q : MPSCQSlotted T) (p : P) (c : Call P) :
    (s.leave q p).InFlight c ↔ s.InFlight c ∧ c ≠ s.call p :=
  Marked.leave_iff rfl

theorem Inv.published_leave (hi : Inv k s g) {v : Option T} {i : Nat}
    (hget : g.pushed[i]? = some (s.call p, v)) (j : Nat) :
    (s.leave q p).Published g j ↔ s.Published g j ∨ j = i := by
  constructor
  · rintro ⟨c, w, hgetj, hno⟩
    by_cases hc : s.InFlight c
    · have hcp : c = s.call p := by
        by_contra hne
        exact hno ((State.inFlight_leave q p c).mpr ⟨hc, hne⟩)
      subst hcp
      exact Or.inr (hi.index_inj hgetj hget)
    · exact Or.inl ⟨c, w, hgetj, hc⟩
  · rintro (⟨c, w, hgetj, hno⟩ | rfl)
    · exact ⟨c, w, hgetj, fun h => hno ((State.inFlight_leave q p c).mp h).1⟩
    · exact ⟨_, v, hget, fun h => ((State.inFlight_leave q p _).mp h).2 rfl⟩

/-- The stamp moves on by one and the item is there for the consumer. -/
theorem Inv.publish (hi : Inv k s g) (hk : k ≤ 64) {v : Option T} {pos : Usize}
    (hp : s.enq p = some (.publish v pos)) :
    Inv k (s.leave (s.queue.setSeq (pos &&& mask (BitVec.ofNat 64 (2 ^ k))) (pos + 1)) p) g := by
  obtain ⟨i, hpop, hget, rfl, hin⟩ := hi.entry p v pos (by rw [hp]; rfl)
  have hin' := hin (by rw [hp]; rfl)
  rw [slot_eq, word_succ]
  generalize hq : s.queue.setSeq (slot 64 k i) (BitVec.ofNat 64 (i + 1)) = q
  have hfl := State.inFlight_leave (s := s) q p
  have hpub := hi.published_leave (q := q) hget
  have hold : ¬ s.Published g i := Inv.not_published (by rw [hp]; rfl) hget
  refine ⟨?_, ?_, hi.nodup, ?_, ?_, ?_, ?_, ?_, ?_, ?_, ?_⟩
  · rw [← hq]
    exact hi.head
  · rw [← hq]
    exact hi.tail
  · intro c hc
    exact Marked.over_or_leave rfl (hi.called c hc)
  · intro r w pos hr
    have hrp : r ≠ p := by
      intro heq
      subst heq
      rw [State.leave_enq, Function.update_self] at hr
      cases hr
    rw [State.leave_enq, Function.update_of_ne hrp] at hr ⊢
    rw [State.call, State.leave_calls, Function.update_of_ne hrp]
    exact hi.entry r w pos hr
  · intro r w j hr
    rcases eq_some_of_update hr with ⟨rfl, ⟨⟩⟩ | ⟨-, hr⟩
    rw [State.leave_queue, ← hq, setSeq_data]
    exact hi.written r w j hr
  · intro j c w hle hgetj
    obtain ⟨hc2, hsp⟩ := hi.ahead j c w hle hgetj
    have hne : c.1 ≠ p := by
      intro heq
      subst heq
      rw [hp] at hsp
      cases hsp
    refine ⟨?_, ?_⟩
    · rw [State.leave_calls, Function.update_of_ne hne]
      exact hc2
    · rw [State.leave_enq, Function.update_of_ne hne]
      exact hsp
  · intro j hle hlt
    rw [hpub, State.leave_queue, ← hq]
    by_cases hji : j = i
    · subst hji
      left
      exact ⟨Or.inr rfl, by rw [setSeq_self]⟩
    · have hslot : slot 64 k j ≠ slot 64 k i := fun h =>
        hji (slot_inj_window hk hle hlt hpop hin' h)
      rw [setSeq_of_ne hslot]
      simpa [hji] using hi.seq j hle hlt
  · intro j c w hle hgetj hno
    rw [State.leave_queue, ← hq, setSeq_data]
    by_cases hji : j = i
    · subst hji
      obtain ⟨-, rfl⟩ : s.call p = c ∧ v = w := by simpa using hget.symm.trans hgetj
      exact hi.written p v j hp
    · refine hi.data j c w hle hgetj fun hc => hno ((hfl c).mpr ⟨hc, ?_⟩)
      intro heq
      subst heq
      exact hji (hi.index_inj hgetj hget)
  · intro hd
    rw [hpub]
    exact Or.inl (hi.read hd)
  · intro w hd
    obtain ⟨c, hgetc, hno⟩ := hi.release w hd
    exact ⟨c, hgetc, fun h => hno ((hfl c).mp h).1⟩

end Producers

/-! ## The consumer -/

/-- The difference the consumer computes is negative exactly when its item is not there yet. -/
theorem Inv.probe (hi : Inv k s g) :
    ((s.queue.buffer (slot 64 k g.popped)).seq - (s.queue.tail + 1)).toInt < 0 ↔
      ¬ s.Published g g.popped := by
  rw [hi.tail, word_succ]
  have hlap := Nat.two_pow_pos k
  rcases hi.seq g.popped (Nat.le_refl _) (by omega) with ⟨hpub, hseq⟩ | ⟨hno, hseq⟩
  · rw [hseq, BitVec.sub_self]
    exact iff_of_false (by decide) (fun h => h hpub)
  · have hone : BitVec.ofNat 64 g.popped - BitVec.ofNat 64 (g.popped + 1) = -1 := by
      rw [← word_succ, BitVec.sub_eq_iff_eq_add, BitVec.add_comm, BitVec.add_assoc]
      exact (BitVec.add_zero _).symm
    rw [hseq, hone]
    exact iff_of_true (by decide) hno

/-- The consumer gives the cell to the position a lap on, and the log's cursor moves. -/
theorem Inv.dequeue (hi : Inv k s g) (hk : k ≤ 64) {v : Option T}
    (hd : s.deq = some (.release v)) (hlt : g.popped < g.pushed.length) :
    Inv k { s with
      queue := (s.queue.setSeq (slot 64 k g.popped)
        (s.queue.tail + BitVec.ofNat 64 (2 ^ k))).advance
      deq := none } (g.pop hlt) := by
  obtain ⟨c, hget, hno⟩ := hi.release v hd
  generalize hq : s.queue.setSeq (slot 64 k g.popped)
    (s.queue.tail + BitVec.ofNat 64 (2 ^ k)) = q
  have hfl : ∀ c, State.InFlight { s with queue := q.advance, deq := none } c ↔ s.InFlight c :=
    fun _ => Iff.rfl
  have hpub := State.published_congr (g := g) hfl
  refine ⟨?_, ?_, hi.nodup, hi.called, ?_, ?_, ?_, ?_, ?_, ?_, ?_⟩
  · show q.head = _
    rw [← hq]
    exact hi.head
  · show q.tail + 1 = _
    rw [← hq]
    show s.queue.tail + 1 = _
    rw [hi.tail, word_succ]
    rfl
  · intro p w pos hp
    obtain ⟨i, hle, hgeti, hpos, hin⟩ := hi.entry p w pos hp
    refine ⟨i, ?_, hgeti, hpos, fun h => ?_⟩
    · -- the item just taken was published, so it is not `p`'s
      have hne : i ≠ g.popped := by
        intro heq
        subst heq
        have hc : c = s.call p := congrArg Prod.fst (Option.some.inj (hget.symm.trans hgeti))
        exact hno (hc ▸ Inv.inFlight_call hp)
      show g.popped + 1 ≤ i
      omega
    · have := hin h
      show i < g.popped + 1 + 2 ^ k
      omega
  · intro p w i hp
    show (q.buffer _).data = w
    rw [← hq, setSeq_data]
    exact hi.written p w i hp
  · intro i c' w hle hgeti
    change g.popped + 1 + 2 ^ k ≤ i at hle
    exact hi.ahead i c' w (by omega) hgeti
  · intro i hle hlt'
    change g.popped + 1 ≤ i at hle
    change i < g.popped + 1 + 2 ^ k at hlt'
    show (State.Published { s with queue := q.advance, deq := none } g i ∧ (q.buffer _).seq = _) ∨
      (¬ State.Published { s with queue := q.advance, deq := none } g i ∧ (q.buffer _).seq = _)
    rw [hpub]
    by_cases hlast : i = g.popped + 2 ^ k
    · -- the cell comes round to a position whose producer, if there is one, still spins
      subst hlast
      right
      refine ⟨fun h => absurd (hi.published_lt h) (Nat.lt_irrefl _), ?_⟩
      rw [← hq, slot_add_lap hk, setSeq_self, hi.tail, BitVec.ofNat_add]
    · have hslot : slot 64 k i ≠ slot 64 k g.popped := by
        intro h
        have := slot_inj_window hk (show g.popped ≤ i by omega)
          (show i < g.popped + 2 ^ k by omega) (Nat.le_refl _) (by omega) h
        omega
      rw [← hq, setSeq_of_ne hslot]
      exact hi.seq i (by omega) (by omega)
  · intro i c' w hle hgeti hno'
    change g.popped + 1 ≤ i at hle
    show (q.buffer _).data = w
    rw [← hq, setSeq_data]
    exact hi.data i c' w (by omega) hgeti hno'
  · intro h
    cases h
  · intro w h
    cases h

/-! ## Every step keeps the invariant -/

theorem init_inv (hk : k < 64) :
    Inv k (State.init (new (BitVec.ofNat 64 (2 ^ k))) : State T P) Log.empty := by
  have hno : ∀ i, ¬ (State.init (new (BitVec.ofNat 64 (2 ^ k))) : State T P).Published
      Log.empty i := by
    rintro i ⟨c, v, hget, -⟩
    cases hget
  refine ⟨rfl, rfl, List.nodup_nil, ?_, ?_, ?_, ?_, ?_, ?_, ?_, ?_⟩
  · intro c h
    cases h
  · intro p v pos h
    cases h
  · intro p v i h
    cases h
  · intro i c v _ h
    cases h
  · intro i _ hlt
    rw [Log.empty_popped, Nat.zero_add] at hlt
    have hslot : slot 64 k i = BitVec.ofNat 64 i := by
      rw [slot_eq_ofNat_mod (Nat.le_of_lt hk), Nat.mod_eq_of_lt hlt]
    have hcell : BitVec.ofNat 64 i < BitVec.ofNat 64 (2 ^ k) := by
      have : 2 ^ k < 2 ^ 64 := Nat.pow_lt_pow_right (by omega) hk
      rw [BitVec.lt_def, BitVec.toNat_ofNat, BitVec.toNat_ofNat, Nat.mod_eq_of_lt this,
        Nat.mod_eq_of_lt (by omega)]
      exact hlt
    right
    refine ⟨hno i, ?_⟩
    rw [hslot]
    show (if BitVec.ofNat 64 i < BitVec.ofNat 64 (2 ^ k) then _ else _ : Cell T).seq = _
    rw [if_pos hcell]
  · intro i c v _ h
    cases h
  · intro h
    cases h
  · intro v h
    cases h

theorem enqueueStep_inv [DecidableEq P] [Fintype P] (hfit : 2 ^ k + Fintype.card P < 2 ^ 64)
    (hk : k ≤ 64) (hk1 : 1 ≤ k) (hi : Inv k s g) {p : P} {pc : Enqueue T} (hp : s.enq p = some pc) :
    Run.Matches (Inv k) (Log.Step Prod.snd) g (enqueueStep (BitVec.ofNat 64 (2 ^ k)) s p pc).2
      (enqueueStep (BitVec.ofNat 64 (2 ^ k)) s p pc).1.logOp? := by
  cases pc with
  | ticket v => exact ⟨_, .push g (s.call p, v), hi.ticket hp⟩
  | spin v pos =>
      obtain ⟨i, hpop, hget, rfl, -⟩ := hi.entry p v pos (by rw [hp]; rfl)
      rw [enqueueStep, slot_eq]
      split
      · next hdif =>
          have hseq := (BitVec.sub_eq_iff_eq_add.mp hdif).trans (BitVec.zero_add _)
          exact hi.pass hp hpop hget ((hi.stamp_eq_iff hfit hk hk1 hp hpop hget).mp hseq)
      · exact hi
  | write v pos => exact hi.write hk hp
  | publish v pos => exact hi.publish hk hp

theorem dequeueStep_inv (hk : k ≤ 64) (hi : Inv k s g) :
    Run.Matches (Inv k) (Log.Step Prod.snd) g (dequeueStep (BitVec.ofNat 64 (2 ^ k)) s).2
      (dequeueStep (BitVec.ofNat 64 (2 ^ k)) s).1.logOp? := by
  have hslot : s.queue.tail &&& mask (BitVec.ofNat 64 (2 ^ k)) = slot 64 k g.popped := by
    rw [hi.tail, slot_eq]
  rw [dequeueStep, hslot]
  cases hd : s.deq with
  | none =>
      dsimp only
      split
      · exact hi
      · next hdif =>
          have hpub : s.Published g g.popped := by
            by_contra hno
            exact hdif (hi.probe.mpr hno)
          exact { hi with
            read := fun _ => hpub
            release := fun v h => by cases h }
  | some pc =>
      cases pc with
      | read =>
          obtain ⟨c, v, hget, hno⟩ := hi.read hd
          have hdata := hi.data _ c v (Nat.le_refl _) hget hno
          exact { hi with
            read := fun h => by cases h
            release := fun w h => by
              cases h
              exact ⟨c, by rw [hdata, hget], hno⟩ }
      | release v =>
          obtain ⟨c, hget, -⟩ := hi.release v hd
          obtain ⟨hlt, hc⟩ := List.getElem?_eq_some_iff.mp hget
          refine ⟨g.pop hlt, ?_, hi.dequeue hk hd hlt⟩
          have hstep : Log.Step Prod.snd g (.pop (Prod.snd g.pushed[g.popped])) (g.pop hlt) :=
            .pop g hlt
          rwa [hc] at hstep

/-- **One step.** The invariant is kept, and what happens to the log is what the event says. -/
theorem step_inv [DecidableEq P] [Fintype P] (hfit : 2 ^ k + Fintype.card P < 2 ^ 64) (hk : k ≤ 64)
    (hk1 : 1 ≤ k) {e : Event T P} (hi : Inv k s g) (h : Step (BitVec.ofNat 64 (2 ^ k)) s e s') :
    Run.Matches (Inv k) (Log.Step Prod.snd) g s' e.logOp? := by
  cases h with
  | call v hp => exact hi.call v hp
  | enqueue hp => exact enqueueStep_inv hfit hk hk1 hi hp
  | dequeue => exact dequeueStep_inv hk hi

end Shclog.MPSCQSlotted
