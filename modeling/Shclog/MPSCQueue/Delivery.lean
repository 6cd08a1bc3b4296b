import Shclog.MPSCQueue.Invariant

/-! # `MPSCQueue` delivers exactly once, in ticket order

`run_log` lifts the invariant to whole runs: every run of the queue is, ticket by ticket and
delivery by delivery, a run of a log. `History` adds what the log does not know, which call brought
which entry and what each call returned. The delivery theorem puts the two together. -/

namespace Shclog.MPSCQueue

open Lib

variable {T P : Type} {k : Nat}

/-! ## Runs of the queue are runs of a log -/

/-- What `create` hands out: a fresh queue whose capacity is a power of two from 2 up. -/
theorem create_ok {capacity : Usize} {bufAlloc queueAlloc : Bool} {q : MPSCQueue T}
    (h : create capacity bufAlloc queueAlloc = .ok q) :
    q = new capacity ∧ ∃ k, 1 ≤ k ∧ k < 64 ∧ capacity = BitVec.ofNat 64 (2 ^ k) := by
  rw [create] at h
  split at h
  · cases h
  · next hc =>
      split at h
      · cases h
      · split at h
        · cases h
        · cases h
          simp only [Bool.or_eq_true, decide_eq_true_eq, bne_iff_ne, ne_eq, not_or,
            not_not] at hc
          exact ⟨rfl, Usize.exists_two_pow hc.1 hc.2⟩

/-- `create` refuses no power of two from 2 up. -/
theorem create_two_pow {k : Nat} (hk1 : 1 ≤ k) (hk : k < 64) :
    create (T := T) (BitVec.ofNat 64 (2 ^ k)) true true = .ok (new (BitVec.ofNat 64 (2 ^ k))) := by
  have hnat := Usize.toNat_two_pow hk
  have htwo : 2 ≤ 2 ^ k := Nat.pow_le_pow_right (show 0 < 2 by omega) hk1
  have hge : ¬ BitVec.ofNat 64 (2 ^ k) < 2 := by
    rw [BitVec.lt_def, hnat]
    exact Nat.not_lt.mpr htwo
  rw [create, decide_eq_false hge, Usize.two_pow_and_pred hk]
  rfl

theorem tickets_append (tr₁ tr₂ : List (Event T P)) :
    tickets (tr₁ ++ tr₂) = tickets tr₁ ++ tickets tr₂ := List.filterMap_append ..

variable [DecidableEq P] [Fintype P] {q : MPSCQueue T} {capacity : Usize} {tr : List (Event T P)}
  {s s' : State T P}

/-- **Refinement.** A run of the queue is a run of the log of its tickets. -/
theorem run_log (hfit : 2 ^ k + Fintype.card P < 2 ^ 64) (hk : k ≤ 64)
    (h : Run Step (State.init (new (BitVec.ofNat 64 (2 ^ k)))) tr s) :
    ∃ g, Run (Log.Step Prod.snd) Log.empty (tr.filterMap Event.logOp?) g ∧ Inv k s g :=
  h.simulate (init_inv _ rfl) fun _ _ _ _ hi hs => step_inv hfit hk hi hs

/-- The invariant after a run, at the log the run itself shows. -/
theorem run_inv (hfit : 2 ^ k + Fintype.card P < 2 ^ 64) (hk : k ≤ 64)
    (h : Run Step (State.init (new (BitVec.ofNat 64 (2 ^ k)))) tr s) :
    ∃ g, Inv k s g ∧ g.pushed = tickets tr ∧ g.popped = (delivered tr).length ∧
      delivered tr = ((tickets tr).take (delivered tr).length).map Prod.snd := by
  obtain ⟨g, hrun, hi⟩ := run_log hfit hk h
  refine ⟨g, hi, Log.run_reads ?_ ?_ hrun⟩
  · intro e
    cases e with
    | dequeued r => cases r <;> rfl
    | _ => rfl
  · intro e
    cases e with
    | dequeued r => cases r <;> rfl
    | _ => rfl

/-! ## Calls and what became of them -/

/-- The pointer a producer inside `enqueue` was called with. -/
def Enqueue.arg : Enqueue T → Option T
  | .load v => v
  | .reserve v | .undo v | .ticket v | .store v _ => some v

/-- The call a step begins. -/
def Event.called? : Event T P → Option (Call P)
  | .called c _ => some c
  | _ => none

def callsOf (tr : List (Event T P)) : List (Call P) := tr.filterMap Event.called?

omit [DecidableEq P] [Fintype P] in
theorem mem_callsOf {c : Call P} {v : Option T} (h : .called c v ∈ tr) : c ∈ callsOf tr :=
  List.mem_filterMap.mpr ⟨_, h, rfl⟩

/-- What a run shows about each call. -/
structure History (tr : List (Event T P)) (s : State T P) : Prop where
  nodup : (callsOf tr).Nodup
  begun : ∀ c ∈ callsOf tr, c.2 < s.calls c.1 ∨ (c.2 = s.calls c.1 ∧ s.enq c.1 ≠ none)
  current : ∀ p pc, s.enq p = some pc → .called (s.call p) pc.arg ∈ tr
  ticket : ∀ c v, (c, v) ∈ tickets tr → .called c (some v) ∈ tr
  accepted : ∀ c w, .returned c true w ∈ tr → w = none ∧ ∃ v, (c, v) ∈ tickets tr
  refused : ∀ c w, .returned c false w ∈ tr →
    c.2 < s.calls c.1 ∧ .called c w ∈ tr ∧ ∀ v, (c, v) ∉ tickets tr

section History

variable {e : Event T P}

omit [DecidableEq P] [Fintype P] in
/-- A step that begins no call, hands out no ticket and ends no call. -/
theorem History.quiet (hh : History tr s) (hcalled : e.called? = none) (hticket : e.ticket? = none)
    (hreturned : ∀ c b w, e ≠ .returned c b w) (hcalls : s'.calls = s.calls)
    (henq : ∀ p, (s'.enq p).map Enqueue.arg = (s.enq p).map Enqueue.arg) :
    History (tr ++ [e]) s' := by
  have hcallsOf : callsOf (tr ++ [e]) = callsOf tr := by simp [callsOf, hcalled]
  have htickets : tickets (tr ++ [e]) = tickets tr := by simp [tickets, hticket]
  have hret : ∀ c b w, .returned c b w ∈ tr ++ [e] → .returned c b w ∈ tr := by
    intro c b w hmem
    rcases List.mem_append.mp hmem with h | h
    · exact h
    · exact absurd (List.mem_singleton.mp h).symm (hreturned c b w)
  refine ⟨hcallsOf ▸ hh.nodup, ?_, ?_, ?_, ?_, ?_⟩
  · intro c hc
    rw [hcallsOf] at hc
    rw [hcalls]
    refine (hh.begun c hc).imp_right fun h => ⟨h.1, fun hn => h.2 ?_⟩
    have := henq c.1
    rw [hn] at this
    exact Option.map_eq_none_iff.mp this.symm
  · intro p pc hp
    have := henq p
    rw [hp, Option.map_some] at this
    obtain ⟨pc₀, hp₀, harg⟩ := Option.map_eq_some_iff.mp this.symm
    rw [State.call, hcalls, ← harg]
    exact List.mem_append_left _ (hh.current p pc₀ hp₀)
  · intro c v hc
    rw [htickets] at hc
    exact List.mem_append_left _ (hh.ticket c v hc)
  · intro c w hc
    rw [htickets]
    exact hh.accepted c w (hret c true w hc)
  · intro c w hc
    obtain ⟨hlt, hcall, hno⟩ := hh.refused c w (hret c false w hc)
    rw [hcalls, htickets]
    exact ⟨hlt, List.mem_append_left _ hcall, hno⟩

omit [Fintype P] in
/-- A producer enters `enqueue`. -/
theorem History.call (hh : History tr s) {p : P} (v : Option T) (hp : s.enq p = none) :
    History (tr ++ [.called (s.call p) v]) (s.goto s.queue p (.load v)) := by
  have hcallsOf : callsOf (tr ++ [.called (s.call p) v]) = callsOf tr ++ [s.call p] := by
    simp [callsOf, Event.called?]
  have htickets : tickets (tr ++ [.called (s.call p) v]) = tickets tr := by
    simp [tickets, Event.ticket?]
  have hnew : s.call p ∉ callsOf tr := by
    intro hmem
    rcases hh.begun _ hmem with hlt | ⟨-, hne⟩
    · exact Nat.lt_irrefl _ hlt
    · exact hne hp
  have hret : ∀ c b w, .returned c b w ∈ tr ++ [.called (s.call p) v] → .returned c b w ∈ tr := by
    intro c b w hmem
    simpa using hmem
  refine ⟨?_, ?_, ?_, ?_, ?_, ?_⟩
  · rw [hcallsOf, List.nodup_append]
    refine ⟨hh.nodup, List.nodup_singleton _, ?_⟩
    intro a ha b hb hab
    obtain rfl : b = s.call p := by simpa using hb
    exact hnew (hab ▸ ha)
  · intro c hc
    rw [hcallsOf, List.mem_append, List.mem_singleton] at hc
    rcases hc with hc | rfl
    · refine (hh.begun c hc).imp_right fun h => ⟨h.1, ?_⟩
      have hne : c.1 ≠ p := by
        intro heq
        subst heq
        exact h.2 hp
      rw [State.goto_enq, Function.update_of_ne hne]
      exact h.2
    · exact Or.inr ⟨rfl, by simp [State.call]⟩
  · intro r pc hr
    rcases eq_some_of_update hr with ⟨rfl, ⟨⟩⟩ | ⟨-, hr⟩
    · exact List.mem_append_right _ (List.mem_singleton.mpr rfl)
    · exact List.mem_append_left _ (hh.current r pc hr)
  · intro c w hc
    rw [htickets] at hc
    exact List.mem_append_left _ (hh.ticket c w hc)
  · intro c w hc
    rw [htickets]
    exact hh.accepted c w (hret c true w hc)
  · intro c w hc
    obtain ⟨hlt, hcall, hno⟩ := hh.refused c w (hret c false w hc)
    rw [htickets]
    exact ⟨hlt, List.mem_append_left _ hcall, hno⟩

omit [Fintype P] in
/-- A producer takes its ticket. -/
theorem History.take (hh : History tr s) {p : P} {v : T} (hp : s.enq p = some (.ticket v)) :
    History (tr ++ [.ticket (s.call p) v])
      (s.goto s.queue.headAdd p (.store v s.queue.head)) := by
  have hcallsOf : callsOf (tr ++ [.ticket (s.call p) v]) = callsOf tr := by
    simp [callsOf, Event.called?]
  have htickets : tickets (tr ++ [.ticket (s.call p) v]) = tickets tr ++ [(s.call p, v)] := by
    simp [tickets, Event.ticket?]
  have hcalled : .called (s.call p) (some v) ∈ tr := hh.current p _ hp
  refine ⟨hcallsOf ▸ hh.nodup, ?_, ?_, ?_, ?_, ?_⟩
  · intro c hc
    rw [hcallsOf] at hc
    refine (hh.begun c hc).imp_right fun h => ⟨h.1, ?_⟩
    by_cases hcp : c.1 = p
    · rw [State.goto_enq, hcp, Function.update_self]
      exact Option.some_ne_none _
    · rw [State.goto_enq, Function.update_of_ne hcp]
      exact h.2
  · intro r pc hr
    rcases eq_some_of_update hr with ⟨rfl, ⟨⟩⟩ | ⟨-, hr⟩
    · exact List.mem_append_left _ hcalled
    · exact List.mem_append_left _ (hh.current r pc hr)
  · intro c w hc
    rw [htickets, List.mem_append, List.mem_singleton] at hc
    rcases hc with hc | hc
    · exact List.mem_append_left _ (hh.ticket c w hc)
    · cases hc
      exact List.mem_append_left _ hcalled
  · intro c w hc
    obtain ⟨hw, x, hx⟩ := hh.accepted c w (by simpa using hc)
    exact ⟨hw, x, by rw [htickets]; exact List.mem_append_left _ hx⟩
  · intro c w hc
    obtain ⟨hlt, hcall, hno⟩ := hh.refused c w (by simpa using hc)
    refine ⟨hlt, List.mem_append_left _ hcall, ?_⟩
    intro x hx
    rw [htickets, List.mem_append, List.mem_singleton] at hx
    rcases hx with hx | hx
    · exact hno x hx
    · -- a call that has returned is not the one now taking a ticket
      have : c = s.call p := congrArg Prod.fst hx
      rw [this] at hlt
      exact Nat.lt_irrefl _ hlt

omit [Fintype P] in
/-- A producer returns. -/
theorem History.leave (hh : History tr s) {p : P} {pc : Enqueue T} {q : MPSCQueue T} {b : Bool}
    {w : Option T} (hp : s.enq p = some pc)
    (htrue : b = true → w = none ∧ ∃ v, (s.call p, v) ∈ tickets tr)
    (hfalse : b = false → w = pc.arg ∧ ∀ v, (s.call p, v) ∉ tickets tr) :
    History (tr ++ [.returned (s.call p) b w]) (s.leave q p) := by
  have hcallsOf : callsOf (tr ++ [.returned (s.call p) b w]) = callsOf tr := by
    simp [callsOf, Event.called?]
  have htickets : tickets (tr ++ [.returned (s.call p) b w]) = tickets tr := by
    simp [tickets, Event.ticket?]
  have hle : ∀ r, s.calls r ≤ (s.leave q p).calls r := by
    intro r
    by_cases hr : r = p
    · subst hr
      simp
    · simp [Function.update_of_ne hr]
  refine ⟨hcallsOf ▸ hh.nodup, ?_, ?_, ?_, ?_, ?_⟩
  · intro c hc
    rw [hcallsOf] at hc
    by_cases hcp : c.1 = p
    · left
      rw [State.leave_calls, hcp, Function.update_self, ← hcp]
      rcases hh.begun c hc with hlt | ⟨heq, -⟩ <;> omega
    · rw [State.leave_calls, State.leave_enq, Function.update_of_ne hcp,
        Function.update_of_ne hcp]
      exact hh.begun c hc
  · intro r pc' hr
    have hrp : r ≠ p := by
      intro heq
      subst heq
      simp at hr
    rw [State.leave_enq, Function.update_of_ne hrp] at hr
    have hcall : (s.leave q p).call r = s.call r := by
      simp [State.call, Function.update_of_ne hrp]
    exact List.mem_append_left _ (hcall ▸ hh.current r pc' hr)
  · intro c v hc
    rw [htickets] at hc
    exact List.mem_append_left _ (hh.ticket c v hc)
  · intro c w' hc
    rw [htickets]
    rcases List.mem_append.mp hc with hc | hc
    · exact hh.accepted c w' hc
    · cases List.mem_singleton.mp hc
      exact htrue rfl
  · intro c w' hc
    rw [htickets]
    rcases List.mem_append.mp hc with hc | hc
    · obtain ⟨hlt, hcall, hno⟩ := hh.refused c w' hc
      exact ⟨Nat.lt_of_lt_of_le hlt (hle c.1), List.mem_append_left _ hcall, hno⟩
    · cases List.mem_singleton.mp hc
      obtain ⟨rfl, hno⟩ := hfalse rfl
      refine ⟨?_, List.mem_append_left _ (hh.current p pc hp), hno⟩
      simp [State.call]

omit [DecidableEq P] [Fintype P] in
/-- A call that is not at its store has no ticket: it has not got that far. -/
theorem Slots.no_ticket {g : Log (Call P × T)} (hi : Slots k s g) {p : P}
    (hp : isStore (s.enq p) = false) (v : T) : (s.call p, v) ∉ g.pushed := by
  intro hmem
  rcases hi.called _ (List.mem_map_of_mem hmem) with hlt | ⟨-, hs⟩
  · exact Nat.lt_irrefl _ hlt
  · rw [State.call, hp] at hs
    cases hs

theorem History.step {g : Log (Call P × T)} (hh : History tr s) (hi : Inv k s g)
    (hg : g.pushed = tickets tr) (h : Step s e s') : History (tr ++ [e]) s' := by
  cases h with
  | call v hp => exact hh.call v hp
  | @enqueue p pc hp =>
      -- going on inside the call: the argument stays what it was
      have hgoto : ∀ (q : MPSCQueue T) (pc' : Enqueue T), pc'.arg = pc.arg →
          ∀ r, ((s.goto q p pc').enq r).map Enqueue.arg = (s.enq r).map Enqueue.arg := by
        intro q pc' harg r
        by_cases hr : r = p
        · subst hr
          simp [hp, harg]
        · simp [Function.update_of_ne hr]
      have hno : isStore (s.enq p) = false → ∀ v, (s.call p, v) ∉ tickets tr :=
        fun hst v => hg ▸ hi.slots.no_ticket hst v
      cases pc with
      | load v =>
          have hst : isStore (s.enq p) = false := by rw [hp]; rfl
          cases v with
          | none => exact hh.leave hp (fun h => by cases h) fun _ => ⟨rfl, hno hst⟩
          | some v =>
              rw [enqueueStep]
              split
              · exact hh.leave hp (fun h => by cases h) fun _ => ⟨rfl, hno hst⟩
              · exact hh.quiet rfl rfl (fun _ _ _ h => by cases h) rfl (hgoto _ _ rfl)
      | reserve v =>
          rw [enqueueStep]
          split
          · exact hh.quiet rfl rfl (fun _ _ _ h => by cases h) rfl (hgoto _ _ rfl)
          · exact hh.quiet rfl rfl (fun _ _ _ h => by cases h) rfl (hgoto _ _ rfl)
      | undo v =>
          exact hh.leave hp (fun h => by cases h) fun _ => ⟨rfl, hno (by rw [hp]; rfl)⟩
      | ticket v => exact hh.take hp
      | store v h =>
          obtain ⟨i, -, hget, -⟩ := hi.slots.storing p v h hp
          exact hh.leave hp (fun _ => ⟨rfl, v, hg ▸ List.mem_of_getElem? hget⟩)
            fun h => by cases h
  | dequeue =>
      rw [dequeueStep]
      cases s.deq with
      | none =>
          cases s.queue.buffer s.queue.tail with
          | none => exact hh.quiet rfl rfl (fun _ _ _ h => by cases h) rfl fun _ => rfl
          | some ret => exact hh.quiet rfl rfl (fun _ _ _ h => by cases h) rfl fun _ => rfl
      | some ret => exact hh.quiet rfl rfl (fun _ _ _ h => by cases h) rfl fun _ => rfl

theorem run_history (hfit : 2 ^ k + Fintype.card P < 2 ^ 64) (hk : k ≤ 64)
    (h : Run Step (State.init (new (BitVec.ofNat 64 (2 ^ k)))) tr s) : History tr s := by
  refine h.invariant ⟨List.nodup_nil, ?_, ?_, ?_, ?_, ?_⟩ ?_
  · intro c h
    cases h
  · intro p pc h
    cases h
  · intro c v h
    cases h
  · intro c w h
    cases h
  · intro c w h
    cases h
  · intro tr s e s' hrun hh hs
    obtain ⟨g, hi, hg, -⟩ := run_inv hfit hk hrun
    exact hh.step hi hg hs

end History

/-! ## The delivery theorem -/

/-- What a run promises the users of the queue; `s` is the state it has come to. -/
structure Delivers (tr : List (Event T P)) (s : State T P) : Prop where
  /-- nothing lost, repeated or reordered -/
  inOrder : delivered tr <+: (tickets tr).map Prod.snd
  /-- a call that returns true took the caller's item and got one ticket for it -/
  accepted : ∀ c w, .returned c true w ∈ tr →
    w = none ∧ ∃ v, .called c (some v) ∈ tr ∧ (tickets tr).filter (·.1 = c) = [(c, v)]
  /-- a call that returns false got none, and the caller holds what it called with -/
  refused : ∀ c w, .returned c false w ∈ tr →
    .called c w ∈ tr ∧ (tickets tr).filter (·.1 = c) = []
  /-- the next store of any producer finds its cell empty -/
  noOverwrite : ∀ p v h, s.enq p = some (.store v h) →
    s.queue.buffer (h &&& s.queue.bufMask) = none
  /-- a call that returned before another began is served before it -/
  realTime : ∀ tr₁ tr₂ c c' w x, tr = tr₁ ++ tr₂ → .returned c true w ∈ tr₁ →
    .called c' x ∈ tr₂ → ∀ j y, (tickets tr)[j]? = some (c', y) →
    ∃ i v, i < j ∧ (tickets tr)[i]? = some (c, v) ∧
      (j < (delivered tr).length → (delivered tr)[j]? = some y ∧ (delivered tr)[i]? = some v)

omit [DecidableEq P] [Fintype P] in
/-- What has been delivered, looked up in the order of tickets. -/
theorem delivered_getElem? {i : Nat} {c : Call P} {v : T}
    (hdel : delivered tr = ((tickets tr).take (delivered tr).length).map Prod.snd)
    (hi : i < (delivered tr).length) (hget : (tickets tr)[i]? = some (c, v)) :
    (delivered tr)[i]? = some v := by
  rw [hdel, List.getElem?_map, List.getElem?_take_of_lt hi, hget]
  rfl

omit [DecidableEq P] [Fintype P] in
/-- A call that has returned with success has its ticket before any call yet to begin. -/
theorem ticket_before {tr₁ tr₂ : List (Event T P)} {m : State T P} {c c' : Call P}
    {w x : Option T} (hm : History tr₁ m) (hh : History (tr₁ ++ tr₂) s)
    (hret : .returned c true w ∈ tr₁) (hcall : .called c' x ∈ tr₂) {j : Nat} {y : T}
    (hj : (tickets (tr₁ ++ tr₂))[j]? = some (c', y)) :
    ∃ i v, i < j ∧ (tickets (tr₁ ++ tr₂))[i]? = some (c, v) := by
  obtain ⟨-, v, hv⟩ := hm.accepted c w hret
  obtain ⟨i, hi⟩ := List.mem_iff_getElem?.mp hv
  have hlt := (List.getElem?_eq_some_iff.mp hi).1
  rw [tickets_append] at hj ⊢
  refine ⟨i, v, ?_, by rw [List.getElem?_append_left hlt, hi]⟩
  apply Nat.lt_of_lt_of_le hlt
  apply Nat.le_of_not_lt
  intro hjlt
  -- otherwise `c'` had a ticket, and so had begun, already in the first part
  rw [List.getElem?_append_left hjlt] at hj
  have hold : c' ∈ callsOf tr₁ := mem_callsOf (hm.ticket c' y (List.mem_of_getElem? hj))
  have hnodup := hh.nodup
  rw [callsOf, List.filterMap_append, List.nodup_append] at hnodup
  exact hnodup.2.2 c' hold c' (mem_callsOf hcall) rfl

/-- **`MPSCQueue` delivers exactly once, in ticket order**: for whatever `create` hands out, any
producers and any interleaving. The bound on threads keeps `count`, a word to which each of them
may have added one beyond the capacity, from wrapping. -/
theorem delivers {bufAlloc queueAlloc : Bool} (hq : create capacity bufAlloc queueAlloc = .ok q)
    (hP : capacity.toNat + Fintype.card P < 2 ^ 64) (h : Run Step (State.init q) tr s) :
    Delivers tr s := by
  obtain ⟨rfl, k, -, hk, rfl⟩ := create_ok hq
  rw [Usize.toNat_two_pow hk] at hP
  have hk' := Nat.le_of_lt hk
  have hh := run_history hP hk' h
  obtain ⟨g, hi, hg, -, hdel⟩ := run_inv hP hk' h
  have hkeys : ((tickets tr).map Prod.fst).Nodup := hg ▸ hi.slots.nodup
  refine ⟨?_, ?_, ?_, ?_, ?_⟩
  · rw [hdel]
    exact (List.take_prefix _ _).map Prod.snd
  · intro c w hret
    obtain ⟨hw, v, hv⟩ := hh.accepted c w hret
    exact ⟨hw, v, hh.ticket c v hv, Log.filter_key_eq_singleton hkeys hv⟩
  · intro c w hret
    obtain ⟨-, hcall, hno⟩ := hh.refused c w hret
    exact ⟨hcall, Log.filter_key_eq_nil hno⟩
  · intro p v h hp
    exact hi.slots.store_empty hp
  · rintro tr₁ tr₂ c c' w x rfl hret hcall j y hj
    obtain ⟨m, hm, -⟩ := h.split
    obtain ⟨i, v, hij, hget⟩ := ticket_before (run_history hP hk' hm) hh hret hcall hj
    exact ⟨i, v, hij, hget, fun hlt =>
      ⟨delivered_getElem? hdel hlt hj, delivered_getElem? hdel (hij.trans hlt) hget⟩⟩

/-- Two producers race for the last of two cells. -/
theorem delivers_race : ∃ (tr : List (Event Nat (Fin 2))) (s : State Nat (Fin 2)),
    Run Step (State.init (new 2)) tr s ∧ delivered tr = [1, 2] ∧ Delivers tr s :=
  have h := Run.of_exec (step_of_move (T := Nat) (P := Fin 2))
    (show exec move (State.init (new 2))
      [.call 0 (some 1), .enqueue 0, .enqueue 0, .enqueue 0, .enqueue 0,
        .call 0 (some 2), .call 1 (some 3), .enqueue 0, .enqueue 1, .enqueue 0, .enqueue 1,
        .enqueue 0, .enqueue 1, .enqueue 0, .dequeue, .dequeue, .dequeue, .dequeue] = some _
      from rfl)
  ⟨_, _, h, rfl, delivers (show create 2 true true = .ok (new 2) from rfl) (by simp) h⟩

end Shclog.MPSCQueue
