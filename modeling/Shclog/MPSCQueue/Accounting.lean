import Shclog.MPSCQueue.Delivery
import Shclog.MPSCQueue.Sequential

/-! # What `count` is worth

`count` is written by three parties: producers that get a slot, producers that try to and have to
take it back, and the consumer. The accounting here is read off the run alone, reservation by
reservation and release by release, and `count_accounts` says that the word in the queue never
disagrees with it. -/

namespace Shclog.MPSCQueue

open Lib

variable {T P : Type} {k : Nat} {q : MPSCQueue T} {capacity : Usize} {tr : List (Event T P)}
  {e : Event T P} {s s' : State T P}

/-- A `fetch_add` of `enqueue` that found room. -/
def Event.accepts : Event T P → Bool
  | .reserved _ accepted => accepted
  | _ => false

/-- The `fetch_sub` of `dequeue`. -/
def Event.releases : Event T P → Bool
  | .dequeued r => r.isSome
  | _ => false

/-- Reservations accepted in a run. -/
def accepted (tr : List (Event T P)) : Nat := tr.countP Event.accepts

/-- Reservations released in a run. -/
def released (tr : List (Event T P)) : Nat := tr.countP Event.releases

/-- Producers between a failing `fetch_add` and the `fetch_sub` that makes up for it. -/
def State.undoing [Fintype P] (s : State T P) : Nat := tally s.enq isUndo

/-- Items that have a ticket and have not been returned by `dequeue`. -/
def undelivered (tr : List (Event T P)) : List T :=
  ((tickets tr).map Prod.snd).drop (delivered tr).length

/-! ## The books are the run's -/

theorem released_eq (tr : List (Event T P)) : released tr = (delivered tr).length := by
  induction tr with
  | nil => rfl
  | cons e tr ih =>
      rw [released, List.countP_cons, ← released, ih, delivered, delivered, List.filterMap_cons]
      cases e with
      | dequeued r =>
          cases r with
          | none => simp [Event.delivered?, Event.releases]
          | some v => simp [Event.delivered?, Event.releases]
      | _ => simp [Event.delivered?, Event.releases]

variable [DecidableEq P] [Fintype P]

/-- A step that reserves a slot leaves its producer waiting for a ticket; the step that hands out
the ticket is the one that ends the wait. -/
theorem step_waiting (h : Step s e s') :
    tally s'.enq isTicket + e.ticket?.isSome.toNat =
      tally s.enq isTicket + e.accepts.toNat := by
  cases h with
  | @call p v hp =>
      have := tally_update s.enq isTicket p (some (.load v))
      rw [hp] at this
      exact this
  | @enqueue p pc hp =>
      have hgoto := fun pc' => tally_update s.enq isTicket p (some pc')
      have hleave := tally_update s.enq isTicket p none
      rw [hp] at hleave
      simp only [hp] at hgoto
      cases pc with
      | load v =>
          cases v with
          | none => exact hleave
          | some v =>
              rw [enqueueStep]
              split
              · exact hleave
              · exact hgoto _
      | reserve v =>
          rw [enqueueStep]
          split
          · exact hgoto _
          · exact hgoto _
      | undo v => exact hleave
      | ticket v => exact hgoto _
      | store v h => exact hleave
  | dequeue =>
      rw [dequeueStep]
      cases s.deq with
      | none => cases s.queue.buffer s.queue.tail <;> rfl
      | some ret => rfl

/-- Every accepted reservation has got its ticket or is waiting for it. -/
theorem run_accepted (h : Run Step (State.init q) tr s) :
    accepted tr = (tickets tr).length + tally s.enq isTicket := by
  refine h.invariant (I := fun tr s => accepted tr = (tickets tr).length + tally s.enq isTicket)
    ?_ ?_
  · show 0 = 0 + tally (fun _ => none) isTicket
    rw [tally_eq_zero fun _ => rfl]
  · intro tr s e s' _ ih hs
    have hstep := step_waiting hs
    have hacc : accepted (tr ++ [e]) = accepted tr + e.accepts.toNat := by
      rw [accepted, List.countP_append, ← accepted, List.countP_singleton]
      cases e.accepts <;> rfl
    have htick : (tickets (tr ++ [e])).length = (tickets tr).length + e.ticket?.isSome.toNat := by
      have hone : (tickets [e]).length = e.ticket?.isSome.toNat := by
        rw [tickets, List.filterMap_cons]
        cases e.ticket? <;> rfl
      rw [tickets_append, List.length_append, hone]
    omega

/-! ## The accounting theorem -/

/-- What holds whenever no call is in progress. -/
structure Settled (tr : List (Event T P)) (s : State T P) : Prop where
  size_eq : (size s.queue).toNat = (undelivered tr).length
  size_le : size s.queue ≤ MPSCQueue.capacity s.queue
  /-- a lone `enqueue` of an item returns, with false exactly when the queue is full, and then
  nothing has changed -/
  enqueue : ∀ p v, ∃ n tr' s' b w,
    exec move s (.call p (some v) :: List.replicate n (.enqueue p)) = some (tr', s') ∧
    tr'.getLast? = some (.returned (s.call p) b w) ∧
    (b = false ↔ (undelivered tr).length = (MPSCQueue.capacity s.queue).toNat) ∧
    (b = false → s'.queue = s.queue ∧ w = some v)
  /-- repeated `dequeue` returns everything before it returns null -/
  drain : ∃ n tr' s', exec move s (List.replicate n .dequeue) = some (tr', s') ∧
    tr'.filterMap Event.result? = (undelivered tr).map some ++ [none]

/-- What `count` is, after any run. -/
structure Accounts (tr : List (Event T P)) (s : State T P) : Prop where
  released_le : released tr ≤ accepted tr
  count : s.queue.count.toNat = (accepted tr - released tr) + s.undoing
  room : accepted tr - released tr ≤ s.queue.max.toNat
  /-- the consumer's `fetch_sub` never acts on zero -/
  release : s.deq.isSome → 0 < s.queue.count
  settled : s.Quiescent → Settled tr s

omit [DecidableEq P] [Fintype P] in
theorem undelivered_eq {g : Log (Call P × T)} (hg : g.pushed = tickets tr)
    (hpop : g.popped = (delivered tr).length) : undelivered tr = g.pending.map Prod.snd := by
  rw [undelivered, Log.pending, hg, hpop, List.map_drop]

theorem settled {g : Log (Call P × T)} (hi : Inv k s g) (hk : k < 64)
    (hfit : 2 ^ k + Fintype.card P < 2 ^ 64) (hun : undelivered tr = g.pending.map Prod.snd)
    (hq : s.Quiescent) : Settled tr s := by
  have hlen : (undelivered tr).length = g.pending.length := by rw [hun, List.length_map]
  obtain ⟨hcount, hroom⟩ := hi.ledger.quiet hq
  have hlt : 2 ^ k < 2 ^ 64 := Nat.pow_lt_pow_right (by omega) hk
  have hsize : (size s.queue).toNat = g.pending.length := by
    rw [size, hcount, BitVec.toNat_ofNat, Nat.mod_eq_of_lt (by omega)]
  have hcap : (MPSCQueue.capacity s.queue).toNat = 2 ^ k := by
    rw [MPSCQueue.capacity, hi.ledger.max, BitVec.toNat_ofNat, Nat.mod_eq_of_lt hlt]
  refine ⟨by rw [hsize, hlen], by rw [BitVec.le_def, hsize, hcap]; exact hroom, ?_, ?_⟩
  · intro p v
    obtain ⟨n, tr', hexec, hlast, -⟩ := exec_enqueue (hq.1 p) (some v)
    refine ⟨n, tr', _, _, _, hexec, hlast, ?_, ?_⟩
    · rw [hlen, hcap]
      exact hi.ledger.enqueue_refused_iff hq hk v
    · intro hfalse
      rw [enqueue_refused hfalse]
      exact ⟨rfl, rfl⟩
  · rw [hun]
    exact hi.drain hfit (Nat.le_of_lt hk) hq

/-- **`count` is an exact ledger**, in every state any interleaving of any producers and the
consumer reaches. -/
theorem count_accounts {bufAlloc queueAlloc : Bool}
    (hq : create capacity bufAlloc queueAlloc = .ok q)
    (hP : capacity.toNat + Fintype.card P < 2 ^ 64) (h : Run Step (State.init q) tr s) :
    Accounts tr s := by
  have haccepted := run_accepted h
  obtain ⟨rfl, k, -, hk, rfl⟩ := create_ok hq
  rw [Usize.toNat_two_pow hk] at hP
  obtain ⟨g, hi, hg, hpop, -⟩ := run_inv hP (Nat.le_of_lt hk) h
  have hle := g.popped_le
  have hreleased := released_eq tr
  have hres : s.reserved g = accepted tr - released tr := by
    rw [State.reserved, haccepted, hreleased, ← hg, ← hpop]
    omega
  have hroom := hi.ledger.room
  have hundo : s.undoing ≤ Fintype.card P := tally_le
  have hcount : s.queue.count.toNat = (accepted tr - released tr) + s.undoing := by
    rw [hi.ledger.count, BitVec.toNat_ofNat, hres, State.undoing]
    rw [hres] at hroom
    rw [State.undoing] at hundo
    exact Nat.mod_eq_of_lt (by omega)
  refine ⟨?_, hcount, ?_, ?_, ?_⟩
  · rw [hreleased, haccepted, ← hg, ← hpop]
    exact Nat.le_trans hle (Nat.le_add_right _ _)
  · rw [hi.ledger.max, BitVec.toNat_ofNat, Nat.mod_eq_of_lt (by omega), ← hres]
    exact hroom
  · intro hd
    obtain ⟨v, hv⟩ := Option.isSome_iff_exists.mp hd
    obtain ⟨c, hc⟩ := hi.slots.deq v hv
    have hlt := (List.getElem?_eq_some_iff.mp hc).1
    show 0 < s.queue.count.toNat
    rw [hcount, hreleased, haccepted, ← hg, ← hpop]
    omega
  · exact settled hi hk hP (undelivered_eq hg hpop)

/-- A producer loads `count` just before another takes the last of two cells, and has to undo. -/
theorem count_accounts_race : ∃ (tr : List (Event Nat (Fin 2))) (s : State Nat (Fin 2)),
    Run Step (State.init (new 2)) tr s ∧ s.queue.count = 3 ∧ accepted tr = 2 ∧ s.undoing = 1 ∧
      Accounts tr s :=
  have h := Run.of_exec (step_of_move (T := Nat) (P := Fin 2))
    (show exec move (State.init (new 2))
      [.call 0 (some 1), .enqueue 0, .enqueue 0, .enqueue 0, .enqueue 0,
        .call 0 (some 2), .call 1 (some 3), .enqueue 0, .enqueue 1, .enqueue 0, .enqueue 1] = some _
      from rfl)
  ⟨_, _, h, rfl, rfl, rfl, count_accounts (show create 2 true true = .ok (new 2) from rfl)
    (by simp) h⟩

end Shclog.MPSCQueue
