import Shclog.UnboundedLinkedMPSCQ.Basic
import Shclog.Lib.Chain

/-! # The invariant of `UnboundedLinkedMPSCQ`

From `tail` to `head` the nodes form one chain, linked but for the links that somebody who has
exchanged `head` has yet to store (`Links`). Everybody who runs `push`, producer or consumer, does
to the chain the same thing, and `Links.push` is about all of them. What the consumer adds is that
the node it is about to hand out is the first of the chain, and that the stub is outside it
whenever it is about to be pushed.

The log here is the sequence of items exchanged into `head`; what is pending in it is what the
chain holds, the stub left out. -/

namespace Shclog.UnboundedLinkedMPSCQ

open Lib

variable {T P : Type} {q : UnboundedLinkedMPSCQ T} {C : List (Node T)}

/-! ## The chain -/

/-- Somebody has exchanged `head`, got `a` back, and is about to link it to `b`. -/
def Pending {W : Type} (pushing : W → Option (Push T)) (a b : Node T) : Prop :=
  ∃ w, pushing w = some (.link b a)

/-- `push` has not put its node into the chain yet. -/
def Push.outside : Push T → Bool
  | .reset _ | .exchange _ => true
  | .link _ _ => false

/-- The chain, and those who run `push`. -/
structure Links {W : Type} (q : UnboundedLinkedMPSCQ T) (pushing : W → Option (Push T))
    (C : List (Node T)) : Prop where
  chain : Chain q.next (Pending pushing) q.tail q.head C
  outside : ∀ w pc, pushing w = some pc → pc.outside → pc.node ∉ C
  cleared : ∀ w n, pushing w = some (.exchange n) → q.next n = none
  distinct : ∀ w w' pc pc', pushing w = some pc → pushing w' = some pc' → pc.node = pc'.node →
    w = w'

section Links

variable {W : Type} {pushing : W → Option (Push T)} {w : W} {pc : Push T}

/-- The nodes of the chain after a step of `push`. -/
def chainAfter (C : List (Node T)) : Push T → List (Node T)
  | .exchange n => C ++ [n]
  | _ => C

theorem pending_update [DecidableEq W] {left : Option (Push T)} {a b : Node T} :
    Pending (Function.update pushing w left) a b ↔
      (∃ v, v ≠ w ∧ pushing v = some (.link b a)) ∨ left = some (.link b a) := by
  constructor
  · rintro ⟨v, hv⟩
    rcases eq_some_of_update hv with ⟨-, hx⟩ | ⟨hvw, hv⟩
    · exact Or.inr hx
    · exact Or.inl ⟨v, hvw, hv⟩
  · rintro (⟨v, hvw, hv⟩ | h)
    · exact ⟨v, by rw [Function.update_of_ne hvw, hv]⟩
    · exact ⟨w, by rw [Function.update_self, h]⟩

/-- Somebody not about to link does not matter to what is pending. -/
theorem pending_update_of_outside [DecidableEq W] {left : Option (Push T)}
    (hw : ∀ a b, pushing w ≠ some (.link b a)) (hleft : ∀ a b, left ≠ some (.link b a))
    (a b : Node T) : Pending (Function.update pushing w left) a b ↔ Pending pushing a b := by
  rw [pending_update]
  constructor
  · rintro (⟨v, -, hv⟩ | h)
    · exact ⟨v, hv⟩
    · exact absurd h (hleft a b)
  · rintro ⟨v, hv⟩
    refine Or.inl ⟨v, ?_, hv⟩
    intro heq
    subst heq
    exact hw a b hv

variable [DecidableEq T] [DecidableEq W]

omit [DecidableEq T] in
/-- `distinct` only looks at the nodes. -/
theorem Links.distinct_update (hl : Links q pushing C) {left : Option (Push T)}
    (hw : pushing w = some pc) (hleft : ∀ pc', left = some pc' → pc'.node = pc.node) :
    ∀ v v' pc₁ pc₂, Function.update pushing w left v = some pc₁ →
      Function.update pushing w left v' = some pc₂ → pc₁.node = pc₂.node → v = v' := by
  have hback : ∀ v pc₁, Function.update pushing w left v = some pc₁ →
      ∃ pc₀, pushing v = some pc₀ ∧ pc₁.node = pc₀.node := by
    intro v pc₁ hv
    rcases eq_some_of_update hv with ⟨rfl, hx⟩ | ⟨-, hv⟩
    · exact ⟨pc, hw, hleft pc₁ hx⟩
    · exact ⟨pc₁, hv, rfl⟩
  intro v v' pc₁ pc₂ hv hv' hn
  obtain ⟨pc₁', h₁, hn₁⟩ := hback v pc₁ hv
  obtain ⟨pc₂', h₂, hn₂⟩ := hback v' pc₂ hv'
  exact hl.distinct v v' pc₁' pc₂' h₁ h₂ (by rw [← hn₁, ← hn₂, hn])

/-- **A step of `push`**, whoever makes it. -/
theorem Links.push (hl : Links q pushing C) (hw : pushing w = some pc) :
    Links (UnboundedLinkedMPSCQ.push q pc).1
      (Function.update pushing w (UnboundedLinkedMPSCQ.push q pc).2) (chainAfter C pc) := by
  have hleft : ∀ pc', (UnboundedLinkedMPSCQ.push q pc).2 = some pc' → pc'.node = pc.node := by
    cases pc <;> simp [UnboundedLinkedMPSCQ.push, Push.node]
  have hdistinct := hl.distinct_update hw hleft
  -- the others run `push` on other nodes
  have hother : ∀ v pc', v ≠ w → pushing v = some pc' → pc'.node ≠ pc.node :=
    fun v pc' hvw hv hn => hvw (hl.distinct v w pc' pc hv hw hn)
  cases pc with
  | reset n =>
      have hn : n ∉ C := hl.outside w _ hw rfl
      refine ⟨(hl.chain.reset hn).congr ?_, ?_, ?_, hdistinct⟩
      · apply pending_update_of_outside
        · intro a b h
          rw [hw] at h
          cases h
        · intro a b h
          cases h
      · intro v pc' hv hout
        rcases eq_some_of_update hv with ⟨rfl, ⟨⟩⟩ | ⟨-, hv⟩
        · exact hn
        · exact hl.outside v pc' hv hout
      · intro v m hv
        show Function.update q.next n none m = none
        rcases eq_some_of_update hv with ⟨rfl, ⟨⟩⟩ | ⟨hvw, hv⟩
        · exact Function.update_self ..
        · have hmn : m ≠ n := hother v _ hvw hv
          rw [Function.update_of_ne hmn]
          exact hl.cleared v m hv
  | exchange n =>
      have hn : n ∉ C := hl.outside w _ hw rfl
      refine ⟨hl.chain.append hn (hl.cleared w n hw) ?_, ?_, ?_, hdistinct⟩
      · intro a b
        rw [pending_update]
        constructor
        · rintro (⟨v, -, hv⟩ | h)
          · exact Or.inl ⟨v, hv⟩
          · cases h
            exact Or.inr ⟨rfl, rfl⟩
        · rintro (⟨v, hv⟩ | ⟨rfl, rfl⟩)
          · refine Or.inl ⟨v, ?_, hv⟩
            intro heq
            subst heq
            rw [hw] at hv
            cases hv
          · exact Or.inr rfl
      · intro v pc' hv hout
        rcases eq_some_of_update hv with ⟨rfl, ⟨⟩⟩ | ⟨hvw, hv⟩
        · cases hout
        · intro hmem
          rcases List.mem_append.mp hmem with hmem | hmem
          · exact hl.outside v pc' hv hout hmem
          · exact hother v pc' hvw hv (List.mem_singleton.mp hmem)
      · intro v m hv
        rcases eq_some_of_update hv with ⟨rfl, ⟨⟩⟩ | ⟨-, hv⟩
        exact hl.cleared v m hv
  | link n prev =>
      have hpend : Pending pushing prev n := ⟨w, hw⟩
      refine ⟨hl.chain.fill hpend ?_, ?_, ?_, hdistinct⟩
      · intro a b
        rw [pending_update]
        constructor
        · rintro (⟨v, hvw, hv⟩ | h)
          · exact ⟨⟨v, hv⟩, fun h => hother v _ hvw hv h.2⟩
          · cases h
        · rintro ⟨⟨v, hv⟩, hne⟩
          refine Or.inl ⟨v, ?_, hv⟩
          intro heq
          subst heq
          rw [hw] at hv
          cases hv
          exact hne ⟨rfl, rfl⟩
      · intro v pc' hv hout
        rcases eq_some_of_update hv with ⟨rfl, ⟨⟩⟩ | ⟨-, hv⟩
        exact hl.outside v pc' hv hout
      · intro v m hv
        rcases eq_some_of_update hv with ⟨rfl, ⟨⟩⟩ | ⟨-, hvm⟩
        -- `prev` is in the chain, and `m` is not yet
        have hm : m ≠ prev := by
          intro heq
          subst heq
          exact hl.outside v _ hvm rfl (hl.chain.hole _ _ hpend).1.mem_left
        show Function.update q.next prev (some n) m = none
        rw [Function.update_of_ne hm]
        exact hl.cleared v m hvm

omit [DecidableEq T] in
/-- Somebody starts to run `push` on a node that is nowhere yet. -/
theorem Links.begin (hl : Links q pushing C) {n : Node T} (hw : pushing w = none) (hn : n ∉ C)
    (hother : ∀ v pc, pushing v = some pc → pc.node ≠ n) :
    Links q (Function.update pushing w (some (.reset n))) C := by
  refine ⟨hl.chain.congr ?_, ?_, ?_, ?_⟩
  · apply pending_update_of_outside
    · intro a b h
      rw [hw] at h
      cases h
    · intro a b h
      cases h
  · intro v pc hv hout
    rcases eq_some_of_update hv with ⟨rfl, ⟨⟩⟩ | ⟨-, hv⟩
    · exact hn
    · exact hl.outside v pc hv hout
  · intro v m hv
    rcases eq_some_of_update hv with ⟨rfl, ⟨⟩⟩ | ⟨-, hv⟩
    exact hl.cleared v m hv
  · intro v v' pc pc' hv hv' hnode
    rcases eq_some_of_update hv with ⟨hvw, hx⟩ | ⟨-, hv⟩
    · rcases eq_some_of_update hv' with ⟨hvw', -⟩ | ⟨-, hv'⟩
      · rw [hvw, hvw']
      · cases hx
        exact absurd hnode.symm (hother v' pc' hv')
    · rcases eq_some_of_update hv' with ⟨-, ⟨⟩⟩ | ⟨-, hv'⟩
      · exact absurd hnode (hother v pc hv)
      · exact hl.distinct v v' pc pc' hv hv' hnode

omit [DecidableEq T] [DecidableEq W] in
/-- `tail = next`: the first node leaves the chain, and nobody's `push` has to do with it. -/
theorem Links.advance (hl : Links q pushing C) {m : Node T} (hnext : q.next q.tail = some m) :
    ∃ C', C = q.tail :: C' ∧ Links { q with tail := m } pushing C' ∧
      (∀ w pc, pushing w = some pc → pc.node ≠ q.tail) ∧
      ∀ w n prev, pushing w = some (.link n prev) → prev ≠ q.tail := by
  obtain ⟨C', hC, hchain, hout⟩ := hl.chain.uncons hnext
  have houtside : ∀ w pc, pushing w = some pc → pc.outside → pc.node ∉ q.tail :: C' :=
    fun w pc hw ho => hC ▸ hl.outside w pc hw ho
  refine ⟨C', hC, ⟨hchain, ?_, hl.cleared, hl.distinct⟩, ?_, ?_⟩
  · intro w pc hw ho
    exact fun hmem => houtside w pc hw ho (List.mem_cons_of_mem _ hmem)
  · intro w pc hw
    cases pc with
    | reset n =>
        intro heq
        subst heq
        exact houtside w _ hw rfl List.mem_cons_self
    | exchange n =>
        intro heq
        subst heq
        exact houtside w _ hw rfl List.mem_cons_self
    | link n prev => exact (hout prev n ⟨w, hw⟩).2
  · intro w n prev hw
    exact (hout prev n ⟨w, hw⟩).1

end Links

/-! ## States -/

/-- Who runs `push`: a producer, or the consumer. -/
def State.pushing (s : State T P) : Option P → Option (Push T)
  | some p => s.enq p
  | none =>
    match s.deq with
    | some (.push _ pc) => some pc
    | _ => none

structure Inv (s : State T P) (g : Log T) (C : List (Node T)) : Prop where
  links : Links s.queue s.pushing C
  items : g.pending = C.filterMap Node.item?
  /-- what is in the chain, or on the way to it, is the queue's -/
  held : ∀ x, .item x ∈ C → s.held x = true
  producer : ∀ p pc, s.enq p = some pc → ∃ x, pc.node = .item x ∧ s.held x = true
  consumer : ∀ t pc, s.deq = some (.push t pc) → pc.node = .stub
  local_tail : ∀ pc, s.deq = some pc → pc.local_tail = s.queue.tail ∧ s.queue.tail ≠ .stub

section Steps

variable {s s' : State T P} {g : Log T}

/-- The consumer moves on without running `push` or touching the queue. -/
theorem Inv.setDeq (hi : Inv s g C) {deq : Option (Pop T)}
    (hold : s.pushing none = none) (hnew : ∀ t pc, deq ≠ some (.push t pc))
    (hlocal : ∀ pc, deq = some pc → pc.local_tail = s.queue.tail ∧ s.queue.tail ≠ .stub) :
    Inv { s with deq := deq } g C := by
  have hpushing : State.pushing { s with deq := deq } = s.pushing := by
    funext w
    cases w with
    | some p => rfl
    | none =>
        rw [hold, State.pushing]
        dsimp only
        split
        · exact absurd rfl (hnew _ _)
        · rfl
  exact { hi with
    links := hpushing ▸ hi.links
    consumer := fun t pc h => absurd h (hnew t pc)
    local_tail := hlocal }

/-- A node in the hands of some `push` is the stub if it is the consumer's, else an item of the
queue's. -/
theorem Inv.node (hi : Inv s g C) {w : Option P} {pc : Push T} (hw : s.pushing w = some pc) :
    (w = none ∧ pc.node = .stub) ∨ ∃ x, pc.node = .item x ∧ s.held x = true := by
  cases w with
  | some p => exact Or.inr (hi.producer p pc hw)
  | none =>
      left
      rw [State.pushing] at hw
      split at hw
      · next heq =>
          cases hw
          exact ⟨rfl, hi.consumer _ _ heq⟩
      · cases hw

variable [DecidableEq T] [DecidableEq P]

theorem push_tail (q : UnboundedLinkedMPSCQ T) (pc : Push T) : (push q pc).1.tail = q.tail := by
  cases pc <;> rfl

theorem push_node (q : UnboundedLinkedMPSCQ T) (pc pc' : Push T) (h : (push q pc).2 = some pc') :
    pc'.node = pc.node := by
  cases pc <;> cases h <;> rfl

/-- A producer enters `enqueue` with an item that is nowhere in the queue. -/
theorem Inv.call (hi : Inv s g C) {p : P} {x : T} (hp : s.enq p = none) (hx : s.held x = false) :
    Inv (s.enter p x) g C := by
  have hpushing : (s.enter p x).pushing =
      Function.update s.pushing (some p) (some (.reset (.item x))) := by
    funext w
    cases w with
    | none => rfl
    | some r =>
        by_cases hr : r = p
        · subst hr
          simp [State.enter, State.pushing]
        · have hne : some r ≠ some p := fun h => hr (Option.some.inj h)
          simp [State.enter, State.pushing, Function.update_of_ne hr, Function.update_of_ne hne]
  have hheld : ∀ y, s.held y = true → (s.enter p x).held y = true := by
    intro y hy
    by_cases hyx : y = x
    · subst hyx
      rw [State.enter]
      exact Function.update_self ..
    · rw [State.enter]
      exact (Function.update_of_ne hyx _ _).trans hy
  have hout : .item x ∉ C := by
    intro hmem
    rw [hi.held x hmem] at hx
    cases hx
  refine ⟨?_, hi.items, ?_, ?_, hi.consumer, hi.local_tail⟩
  · rw [hpushing]
    refine hi.links.begin hp hout ?_
    intro w pc hw hn
    rcases hi.node hw with ⟨-, hstub⟩ | ⟨y, hy, hheldy⟩
    · rw [hstub] at hn
      cases hn
    · rw [hy] at hn
      cases hn
      rw [hx] at hheldy
      cases hheldy
  · intro y hy
    exact hheld y (hi.held y hy)
  · intro r pc hr
    rcases eq_some_of_update hr with ⟨rfl, ⟨⟩⟩ | ⟨-, hr⟩
    · exact ⟨x, rfl, Function.update_self ..⟩
    · obtain ⟨y, hy, hheldy⟩ := hi.producer r pc hr
      exact ⟨y, hy, hheld y hheldy⟩

/-- **A step of `push`** by anybody, in a state: `s'` differs from `s` by what `push` does and by
where its runner then stands. -/
theorem Inv.push (hi : Inv s g C) {w : Option P} {pc : Push T} (hw : s.pushing w = some pc)
    (who : Option (Call P)) (hqueue : s'.queue = (UnboundedLinkedMPSCQ.push s.queue pc).1)
    (hpushing : s'.pushing =
      Function.update s.pushing w (UnboundedLinkedMPSCQ.push s.queue pc).2)
    (hheld : s'.held = s.held)
    (henq : ∀ p pc', s'.enq p = some pc' → ∃ pc₀, s.enq p = some pc₀ ∧ pc'.node = pc₀.node)
    (hpush : ∀ t pc', s'.deq = some (.push t pc') →
      ∃ pc₀, s.deq = some (.push t pc₀) ∧ pc'.node = pc₀.node)
    (hdeq : ∀ pc', s'.deq = some pc' → ∃ pc₀, s.deq = some pc₀ ∧ pc'.local_tail = pc₀.local_tail) :
    Run.Matches (fun s g => ∃ C, Inv s g C) (Log.Step Node.item) g s'
      (pc.event who s.queue : Event T P).logOp? := by
  have htail : s'.queue.tail = s.queue.tail := by rw [hqueue, push_tail]
  have hafter : ∀ g' : Log T, g'.pending = (chainAfter C pc).filterMap Node.item? →
      (∀ x, .item x ∈ chainAfter C pc → s.held x = true) → Inv s' g' (chainAfter C pc) := by
    intro g' hitems hmem
    refine ⟨?_, hitems, ?_, ?_, ?_, ?_⟩
    · rw [hqueue, hpushing]
      exact hi.links.push hw
    · rw [hheld]
      exact hmem
    · intro p pc' hp
      obtain ⟨pc₀, hp₀, hn⟩ := henq p pc' hp
      rw [hheld, hn]
      exact hi.producer p pc₀ hp₀
    · intro t pc' ht
      obtain ⟨pc₀, ht₀, hn⟩ := hpush t pc' ht
      rw [hn]
      exact hi.consumer t pc₀ ht₀
    · intro pc' hd
      obtain ⟨pc₀, hd₀, hn⟩ := hdeq pc' hd
      rw [hn, htail]
      exact hi.local_tail pc₀ hd₀
  cases pc with
  | reset n => exact ⟨C, hafter g hi.items hi.held⟩
  | link n prev => exact ⟨C, hafter g hi.items hi.held⟩
  | exchange n =>
      rcases hi.node hw with ⟨-, hn⟩ | ⟨x, hn, hx⟩
      · -- the stub joins the chain, and the items of the chain stay what they are
        change n = .stub at hn
        subst hn
        refine ⟨C ++ [.stub], hafter g ?_ ?_⟩
        · rw [hi.items, chainAfter, List.filterMap_append]
          exact (List.append_nil _).symm
        · intro x hx
          rcases List.mem_append.mp hx with hx | hx
          · exact hi.held x hx
          · cases List.mem_singleton.mp hx
      · change n = .item x at hn
        subst hn
        refine ⟨g.push x, .push g x, C ++ [.item x], hafter (g.push x) ?_ ?_⟩
        · rw [Log.pending_push, hi.items, chainAfter, List.filterMap_append]
          rfl
        · intro y hy
          rcases List.mem_append.mp hy with hy | hy
          · exact hi.held y hy
          · cases List.mem_singleton.mp hy
            exact hx

theorem enqueueStep_inv (hi : Inv s g C) {p : P} {pc : Push T} (hp : s.enq p = some pc) :
    Run.Matches (fun s g => ∃ C, Inv s g C) (Log.Step Node.item) g (enqueueStep s p pc).2
      (enqueueStep s p pc).1.logOp? := by
  have henq : (enqueueStep s p pc).2.enq =
      Function.update s.enq p (UnboundedLinkedMPSCQ.push s.queue pc).2 := by
    cases pc <;> rfl
  have hdeq : (enqueueStep s p pc).2.deq = s.deq := by cases pc <;> rfl
  refine hi.push (w := some p) hp _ ?_ ?_ ?_ ?_ ?_ ?_
  · cases pc <;> rfl
  · funext w
    cases w with
    | none =>
        rw [State.pushing, hdeq]
        rfl
    | some r =>
        show (enqueueStep s p pc).2.enq r = _
        rw [henq]
        by_cases hr : r = p
        · subst hr
          rw [Function.update_self, Function.update_self]
        · have hne : some r ≠ some p := fun h => hr (Option.some.inj h)
          rw [Function.update_of_ne hr, Function.update_of_ne hne]
          rfl
  · cases pc <;> rfl
  · intro r pc' hr
    rw [henq] at hr
    rcases eq_some_of_update hr with ⟨rfl, hx⟩ | ⟨-, hr⟩
    · exact ⟨pc, hp, push_node _ _ _ hx⟩
    · exact ⟨pc', hr, rfl⟩
  · intro t pc' ht
    exact ⟨pc', hdeq ▸ ht, rfl⟩
  · intro pc' hd
    exact ⟨pc', hdeq ▸ hd, rfl⟩

/-! ## The consumer -/

omit [DecidableEq P] in
/-- A node handed out is an item, the oldest of the log, and has left the chain. -/
theorem Inv.give (hi : Inv s g C) (htail : s.queue.tail ≠ .stub) (hpush : s.pushing none = none)
    {next : Node T} (hnext : s.queue.next s.queue.tail = some next) :
    Run.Matches (fun s g => ∃ C, Inv s g C) (Log.Step Node.item) g (s.give s.queue.tail next)
      (some (.pop s.queue.tail)) := by
  obtain ⟨C', rfl, hlinks, hnode, -⟩ := hi.links.advance hnext
  obtain ⟨x, hx⟩ : ∃ x, s.queue.tail = .item x := by
    cases h : s.queue.tail with
    | stub => exact absurd h htail
    | item x => exact ⟨x, rfl⟩
  have hpending : g.pending = x :: C'.filterMap Node.item? := by
    rw [hi.items, hx]
    rfl
  have hlt : g.popped < g.pushed.length := by
    apply Nat.lt_of_not_le
    intro hle
    rw [g.pending_eq_nil_iff.mpr (Nat.le_antisymm hle g.popped_le)] at hpending
    cases hpending
  rw [g.pending_cons hlt] at hpending
  obtain ⟨hhead, hrest⟩ := List.cons.inj hpending
  have hstep : Log.Step Node.item g (.pop (.item g.pushed[g.popped])) (g.pop hlt) := .pop g hlt
  rw [hhead, ← hx] at hstep
  refine ⟨g.pop hlt, hstep, C', ?_⟩
  have hpushing : (s.give s.queue.tail next).pushing = s.pushing := by
    funext w
    cases w with
    | some p => rfl
    | none =>
        rw [hpush]
        rfl
  have hkeep : ∀ y, s.held y = true → y ≠ x →
      (s.give s.queue.tail next).held y = true := by
    intro y hy hyx
    have hne : s.queue.tail ≠ .item y := by
      rw [hx]
      intro h
      cases h
      exact hyx rfl
    show (if s.queue.tail = .item y then false else s.held y) = true
    rw [if_neg hne, hy]
  refine ⟨hpushing ▸ hlinks, hrest, ?_, ?_, ?_, ?_⟩
  · intro y hy
    refine hkeep y (hi.held y (List.mem_cons_of_mem _ hy)) ?_
    intro heq
    subst heq
    have hnodup := hi.links.chain.nodup
    rw [List.nodup_cons, hx] at hnodup
    exact hnodup.1 hy
  · intro p pc hp
    obtain ⟨y, hy, hheld⟩ := hi.producer p pc hp
    refine ⟨y, hy, hkeep y hheld ?_⟩
    intro heq
    subst heq
    exact hnode (some p) pc hp (hy.trans hx.symm)
  · intro t pc h
    cases h
  · intro pc h
    cases h

omit [DecidableEq P] in
theorem Inv.giveOr (hi : Inv s g C) {t : Node T} (ht : t = s.queue.tail ∧ s.queue.tail ≠ .stub)
    (hpush : s.pushing none = none) {otherwise : Event T P × State T P}
    (hlog : otherwise.1.logOp? = none) (hother : Inv otherwise.2 g C) :
    Run.Matches (fun s g => ∃ C, Inv s g C) (Log.Step Node.item) g
      (UnboundedLinkedMPSCQ.giveOr s t otherwise).2
      (UnboundedLinkedMPSCQ.giveOr s t otherwise).1.logOp? := by
  obtain ⟨rfl, htail⟩ := ht
  rw [UnboundedLinkedMPSCQ.giveOr]
  split
  · next next hnext => exact hi.give htail hpush hnext
  · rw [hlog]
    exact ⟨C, hother⟩

omit [DecidableEq P] [DecidableEq T] in
/-- `tail` moves off the stub; the stub is in nobody's way then. -/
theorem Inv.skip (hi : Inv s g C) (htail : s.queue.tail = .stub) (hdeq : s.deq = none)
    {next : Node T} (hnext : s.queue.next s.queue.tail = some next) :
    ∃ C', Inv { s with queue := { s.queue with tail := next }, deq := some (.next next) } g C' := by
  obtain ⟨C', rfl, hlinks, -, -⟩ := hi.links.advance hnext
  have hpushing : State.pushing { s with
      queue := { s.queue with tail := next }, deq := some (.next next) } = s.pushing := by
    funext w
    cases w with
    | some p => rfl
    | none =>
        rw [State.pushing, State.pushing, hdeq]
  refine ⟨C', hpushing ▸ hlinks, ?_, ?_, hi.producer, ?_, ?_⟩
  · show g.pending = C'.filterMap Node.item?
    rw [hi.items, htail]
    rfl
  · intro x hx
    exact hi.held x (List.mem_cons_of_mem _ hx)
  · intro t pc h
    cases h
  · intro pc h
    cases h
    refine ⟨rfl, ?_⟩
    -- the new first node is in the chain, which the stub has left
    show next ≠ .stub
    intro heq
    subst heq
    have hnodup := hi.links.chain.nodup
    rw [List.nodup_cons, htail] at hnodup
    exact hnodup.1 hlinks.chain.first_mem

omit [DecidableEq T] in
/-- The consumer starts to push the stub: its own node is then the whole chain. -/
theorem Inv.beginStub (hi : Inv s g C) {t : Node T} (hd : s.deq = some (.loadHead t))
    (hhead : t = s.queue.head) : Inv { s with deq := some (.push t (.reset .stub)) } g C := by
  obtain ⟨ht, htail⟩ := hi.local_tail _ hd
  change t = s.queue.tail at ht
  have hchain := hi.links.chain
  rw [← hhead, ← ht] at hchain
  have hC : C = [t] := hchain.eq_singleton
  have hout : .stub ∉ C := by
    rw [hC, List.mem_singleton, ht]
    exact htail.symm
  have hnone : s.pushing none = none := by rw [State.pushing, hd]
  have hpushing : State.pushing { s with deq := some (.push t (.reset .stub)) } =
      Function.update s.pushing none (some (.reset .stub)) := by
    funext w
    cases w with
    | none => rw [Function.update_self]; rfl
    | some p => rw [Function.update_of_ne (Option.some_ne_none p)]; rfl
  refine ⟨?_, hi.items, hi.held, hi.producer, ?_, ?_⟩
  · rw [hpushing]
    refine hi.links.begin hnone hout ?_
    intro w pc hw hn
    rcases hi.node hw with ⟨rfl, -⟩ | ⟨x, hx, -⟩
    · rw [hnone] at hw
      cases hw
    · rw [hx] at hn
      cases hn
  · intro t' pc h
    cases h
    rfl
  · intro pc h
    cases h
    exact ⟨ht, htail⟩

theorem dequeueStep_inv (hi : Inv s g C) :
    Run.Matches (fun s g => ∃ C, Inv s g C) (Log.Step Node.item) g (dequeueStep s).2
      (dequeueStep s).1.logOp? := by
  rw [dequeueStep]
  cases hd : s.deq with
  | none =>
      have hnone : s.pushing none = none := by rw [State.pushing, hd]
      dsimp only
      split
      · next htail =>
          cases hnext : s.queue.next s.queue.tail with
          | none => exact ⟨C, hi⟩
          | some next => exact hi.skip htail hd hnext
      · next htail =>
          refine hi.giveOr ⟨rfl, htail⟩ hnone rfl (hi.setDeq hnone ?_ ?_)
          · intro t pc h
            cases h
          · intro pc h
            cases h
            exact ⟨rfl, htail⟩
  | some pc =>
      have hlocal := hi.local_tail pc hd
      cases pc with
      | next t =>
          have hnone : s.pushing none = none := by rw [State.pushing, hd]
          refine hi.giveOr hlocal hnone rfl (hi.setDeq hnone ?_ ?_)
          · intro t pc h
            cases h
          · intro pc h
            cases h
            exact hlocal
      | loadHead t =>
          have hnone : s.pushing none = none := by rw [State.pushing, hd]
          dsimp only
          split
          · refine ⟨C, hi.setDeq hnone ?_ ?_⟩
            · intro t pc h
              cases h
            · intro pc h
              cases h
          · next hhead => exact ⟨C, hi.beginStub hd (not_not.mp hhead)⟩
      | push t pc =>
          have hw : s.pushing none = some pc := by rw [State.pushing, hd]
          refine hi.push (w := none) hw none ?_ ?_ ?_ ?_ ?_ ?_
          · cases pc <;> rfl
          · funext w
            cases w with
            | none =>
                rw [Function.update_self]
                cases pc <;> rfl
            | some p =>
                rw [Function.update_of_ne (Option.some_ne_none p)]
                cases pc <;> rfl
          · cases pc <;> rfl
          · intro p pc' hp
            refine ⟨pc', ?_, rfl⟩
            cases pc <;> exact hp
          · intro t' pc' ht
            cases pc with
            | reset n =>
                cases ht
                exact ⟨_, hd, rfl⟩
            | exchange n =>
                cases ht
                exact ⟨_, hd, rfl⟩
            | link n prev => cases ht
          · intro pc' hd'
            refine ⟨_, hd, ?_⟩
            cases pc <;> cases hd' <;> rfl
      | recheck t =>
          have hnone : s.pushing none = none := by rw [State.pushing, hd]
          refine hi.giveOr hlocal hnone rfl (hi.setDeq hnone ?_ ?_)
          · intro t pc h
            cases h
          · intro pc h
            cases h

/-! ## Every step keeps the invariant -/

omit [DecidableEq T] [DecidableEq P] in
theorem init_inv : Inv (State.init : State T P) Log.empty [.stub] := by
  have hpushing : ∀ w, (State.init : State T P).pushing w = none := by
    intro w
    cases w <;> rfl
  refine ⟨⟨Chain.singleton rfl ?_, ?_, ?_, ?_⟩, rfl, ?_, ?_, ?_, ?_⟩
  · rintro a b ⟨w, hw⟩
    rw [hpushing] at hw
    cases hw
  · intro w pc hw
    rw [hpushing] at hw
    cases hw
  · intro w n hw
    rw [hpushing] at hw
    cases hw
  · intro w w' pc pc' hw
    rw [hpushing] at hw
    cases hw
  · intro x hx
    cases List.mem_singleton.mp hx
  · intro p pc hp
    cases hp
  · intro t pc h
    cases h
  · intro pc h
    cases h

/-- **One step.** The invariant is kept, and what happens to the log is what the event says. -/
theorem step_inv {e : Event T P} (hi : ∃ C, Inv s g C) (h : Step s e s') :
    Run.Matches (fun s g => ∃ C, Inv s g C) (Log.Step Node.item) g s' e.logOp? := by
  obtain ⟨C, hi⟩ := hi
  cases h with
  | call hp hx => exact ⟨C, hi.call hp hx⟩
  | enqueue hp => exact enqueueStep_inv hi hp
  | dequeue => exact dequeueStep_inv hi

end Steps

end Shclog.UnboundedLinkedMPSCQ
