import Shclog.UnboundedLinkedMPSCQ.Delivery
import Shclog.UnboundedLinkedMPSCQ.Sequential

/-! # `UnboundedLinkedMPSCQ`: why `dequeue` comes back with null

`pop` gives up in three places. In each of them the queue has been found empty, or some producer has
been seen that has exchanged `head` and not linked its node yet. Without such a producer the items
come out one after the other. -/

namespace Shclog.UnboundedLinkedMPSCQ

open Lib

variable {T P : Type} {tr seg : List (Event T P)} {e : Event T P} {s s' m : State T P}

/-- Some producer has exchanged `head` and has yet to store `prev->next`. -/
def State.Linking (s : State T P) : Prop := ∃ p n prev, s.enq p = some (.link n prev)

section Calls

variable [DecidableEq T]

/-- The items exchanged into `head` in a run and not delivered, oldest first. -/
def undelivered (tr : List (Event T P)) : List (Node T) :=
  ((exchanged tr).filter (· ≠ .stub)).drop (delivered tr).length

variable [DecidableEq P]

/-- A call of `dequeue`, from its first operation to the one with which it returns `r`, and whatever
the others do in between. -/
structure Dequeues (s : State T P) (seg : List (Event T P)) (r : Option (Node T)) (s' : State T P) :
    Prop where
  outside : s.deq = none
  begins : ∃ rest, seg = (dequeueStep s).1 :: rest ∧ Run Step (dequeueStep s).2 rest s'
  returns : ∃ mid e, seg = mid ++ [e] ∧ (∀ x ∈ mid, x.result? = none) ∧ e.result? = some r

/-- What excuses a call of `dequeue` that is made after the run `tr`, when `seg` has happened since:
there is nothing to deliver, or a link is missing. -/
def Excuse (tr seg : List (Event T P)) (m : State T P) : Prop :=
  undelivered (tr ++ seg) = [] ∨ m.Linking

theorem Dequeues.run {r : Option (Node T)} (h : Dequeues s seg r s') : Run Step s seg s' := by
  obtain ⟨rest, rfl, hrun⟩ := h.begins
  exact .cons (.dequeue s) hrun

end Calls

/-! ## What the consumer has found -/

/-- A producer's link is missing if it is nobody else's that is. -/
theorem Linking.of_pending {a b : Node T} (h : Pending s.pushing a b)
    (hnone : s.pushing none = none) : s.Linking := by
  obtain ⟨w, hw⟩ := h
  cases w with
  | some p => exact ⟨p, b, a, hw⟩
  | none =>
      rw [hnone] at hw
      cases hw

/-- Once the consumer has exchanged the stub into `head`, `tail` is no longer the head. -/
def State.Apart (s : State T P) : Prop :=
  ∀ pc, s.deq = some pc →
    match pc with
    | .push _ (.link _ _) | .recheck _ => s.queue.tail ≠ s.queue.head
    | _ => True

section Steps

variable [DecidableEq T] [DecidableEq P]

omit [DecidableEq T] [DecidableEq P] in
/-- Elsewhere in `dequeue` nothing is asked for. -/
theorem apart_of_deq (hlink : ∀ t n prev, s.deq ≠ some (.push t (.link n prev)))
    (hrecheck : ∀ t, s.deq ≠ some (.recheck t)) : s.Apart := by
  intro pc hpc
  cases pc with
  | push t pc =>
      cases pc with
      | link n prev => exact absurd hpc (hlink t n prev)
      | _ => trivial
  | recheck t => exact absurd hpc (hrecheck t)
  | _ => trivial

omit [DecidableEq P] in
theorem giveOr_apart {t : Node T} {otherwise : Event T P × State T P} (h : otherwise.2.Apart) :
    (giveOr s t otherwise).2.Apart := by
  unfold giveOr
  split
  · apply apart_of_deq <;> simp [State.give]
  · exact h

theorem enqueueStep_apart {C : List (Node T)} {g : Log T} {p : P} {pc : Push T} (hi : Inv s g C)
    (ha : s.Apart) (hp : s.enq p = some pc) : (enqueueStep s p pc).2.Apart := by
  cases pc with
  | reset n => exact ha
  | link n prev => exact ha
  | exchange n =>
      -- the new head comes from outside the chain
      have hne : s.queue.tail ≠ n := by
        intro heq
        exact hi.links.outside (some p) _ hp rfl (heq ▸ hi.links.chain.first_mem)
      intro pc hpc
      have := ha pc hpc
      cases pc with
      | push t pc => cases pc <;> trivial
      | recheck t => exact hne
      | _ => trivial

omit [DecidableEq P] in
theorem dequeueStep_apart {C : List (Node T)} {g : Log T} (hi : Inv s g C) (ha : s.Apart) :
    (dequeueStep s).2.Apart := by
  unfold dequeueStep
  cases hd : s.deq with
  | none =>
      dsimp only
      split
      · split
        · exact ha
        · apply apart_of_deq <;> simp
      · apply giveOr_apart
        apply apart_of_deq <;> simp
  | some pc =>
      cases pc with
      | next t =>
          apply giveOr_apart
          apply apart_of_deq <;> simp
      | loadHead t =>
          dsimp only
          split
          · apply apart_of_deq <;> simp
          · apply apart_of_deq <;> simp
      | push t pc =>
          cases pc with
          | reset n => apply apart_of_deq <;> simp [push]
          | exchange n =>
              -- it is the stub that is exchanged, and the tail is an item
              have hn : n = .stub := hi.consumer t _ hd
              intro pc hpc
              cases hpc
              exact hn ▸ (hi.local_tail _ hd).2
          | link n prev =>
              intro pc hpc
              cases hpc
              exact ha _ hd
      | recheck t =>
          apply giveOr_apart
          apply apart_of_deq <;> simp

theorem step_apart {C : List (Node T)} {g : Log T} (hi : Inv s g C) (ha : s.Apart)
    (h : Step s e s') : s'.Apart := by
  cases h with
  | call hp hx => exact ha
  | enqueue hp => exact enqueueStep_apart hi ha hp
  | dequeue => exact dequeueStep_apart hi ha

theorem run_apart (h : Run Step State.init tr s) : s.Apart := by
  refine h.invariant (I := fun _ s => s.Apart) ?_ ?_
  · intro pc hpc
    cases hpc
  · intro tr m e m' hrun ha hs
    obtain ⟨g, C, hi, -⟩ := run_inv hrun
    exact step_apart hi ha hs

/-- The items that are still to be delivered are the pending ones of the log. -/
theorem run_undelivered (h : Run Step State.init tr s) :
    ∃ g C, Inv s g C ∧ undelivered tr = g.pending.map Node.item := by
  obtain ⟨g, C, hi, hpushed, hpopped, -⟩ := run_inv h
  refine ⟨g, C, hi, ?_⟩
  rw [undelivered, Log.pending, hpushed, hpopped, List.map_drop, map_item_filterMap]

omit [DecidableEq T] [DecidableEq P] in
/-- The node after `tail` is missing only at the end of the chain, or with a producer's link. -/
theorem Inv.unlinked {C : List (Node T)} {g : Log T} (hi : Inv s g C)
    (hnone : s.pushing none = none) (hnext : s.queue.next s.queue.tail = none) :
    s.queue.tail = s.queue.head ∨ s.Linking := by
  apply (hi.links.chain.ends_or_hole hnext).imp_right
  rintro ⟨b, hpend⟩
  exact Linking.of_pending hpend hnone

/-! ## A call, step by step -/

/-- A call that began at `s` is under way. If it has found no link after `local_tail`, then that is
the head, or the call has an excuse. -/
structure UnderWay (tr seg : List (Event T P)) (s m : State T P) : Prop where
  inside : m.deq ≠ none
  unlinked : ∀ t, m.deq = some (.loadHead t) →
    t = m.queue.head ∨ Excuse tr seg m ∨ Run.Sometime Step (Excuse tr) s seg m

/-- After one more step, `e`, the call goes on, or it returns, and has an excuse if it returns null.
-/
def GoesOn (tr seg : List (Event T P)) (s : State T P) (e : Event T P) (m : State T P) : Prop :=
  (e.result? = none ∧ UnderWay tr (seg ++ [e]) s m) ∨
    ∃ r, e.result? = some r ∧ (r = none → Run.Sometime Step (Excuse tr) s (seg ++ [e]) m)

theorem GoesOn.of_giveOr {t : Node T} {otherwise : Event T P × State T P}
    (hs : Step m (giveOr m t otherwise).1 (giveOr m t otherwise).2)
    (hother : m.queue.next t = none → Step m otherwise.1 otherwise.2 →
      GoesOn tr seg s otherwise.1 otherwise.2) :
    GoesOn tr seg s (giveOr m t otherwise).1 (giveOr m t otherwise).2 := by
  unfold giveOr at hs ⊢
  split
  · right
    refine ⟨some t, rfl, ?_⟩
    intro h
    cases h
  · next hnext =>
      rw [hnext] at hs
      exact hother hnext hs

/-- The consumer has found no link and is about to load `head`. -/
theorem Inv.goesOn_loadHead {C : List (Node T)} {g : Log T} (hi : Inv m g C)
    (hnone : m.pushing none = none) {t : Node T} (ht : t = m.queue.tail)
    (hnext : m.queue.next t = none) (hrun : Run Step s seg m)
    (hs : Step m .unlinked { m with deq := some (.loadHead t) }) :
    GoesOn tr seg s .unlinked { m with deq := some (.loadHead t) } := by
  left
  refine ⟨rfl, Option.some_ne_none _, ?_⟩
  intro t' ht'
  cases ht'
  subst ht
  rcases hi.unlinked hnone hnext with hhead | hlink
  · exact Or.inl hhead
  · exact Or.inr (Or.inr (Run.sometime_snoc hrun (Or.inl (Or.inr hlink)) hs))

/-- The first step of a call. -/
theorem goesOn_first (h : Run Step State.init tr s) (hd : s.deq = none) :
    GoesOn tr [] s (dequeueStep s).1 (dequeueStep s).2 := by
  obtain ⟨g, C, hi, hleft⟩ := run_undelivered h
  have hnone : s.pushing none = none := by rw [State.pushing, hd]
  have hs := Step.dequeue s
  unfold dequeueStep at hs ⊢
  rw [hd] at hs ⊢
  dsimp only at hs ⊢
  split
  · next htail =>
      rw [if_pos htail] at hs
      split
      · next hnext =>
          rw [hnext] at hs
          right
          refine ⟨none, rfl, ?_⟩
          intro _
          refine Run.sometime_snoc .nil (Or.inl ?_) hs
          rcases hi.unlinked hnone hnext with hhead | hlink
          · -- the stub is the whole chain
            left
            have hchain := hi.links.chain
            rw [← hhead] at hchain
            rw [List.append_nil, hleft, hi.items, hchain.eq_singleton, htail]
            rfl
          · exact Or.inr hlink
      · left
        refine ⟨rfl, Option.some_ne_none _, ?_⟩
        intro t ht
        cases ht
  · next htail =>
      rw [if_neg htail] at hs
      apply GoesOn.of_giveOr hs
      intro hnext hs
      exact hi.goesOn_loadHead hnone rfl hnext .nil hs

/-- Whatever was not the head when the consumer loaded `head` is excused. -/
theorem UnderWay.sometime (hu : UnderWay tr seg s m) (hrun : Run Step s seg m) {t : Node T}
    (ht : m.deq = some (.loadHead t)) (hne : t ≠ m.queue.head) (hs : Step m e s') :
    Run.Sometime Step (Excuse tr) s (seg ++ [e]) s' :=
  Run.sometime_snoc hrun ((hu.unlinked t ht).resolve_left hne) hs

/-- A step of a producer: if it changes `head`, its link is missing now. -/
theorem UnderWay.producer (hu : UnderWay tr seg s m) (hrun : Run Step s seg m) (hs : Step m e s')
    (hres : e.result? = none) (hdeq : s'.deq = m.deq)
    (hhead : s'.queue.head = m.queue.head ∨ s'.Linking) : GoesOn tr seg s e s' := by
  left
  refine ⟨hres, hdeq ▸ hu.inside, ?_⟩
  intro t ht
  rw [hdeq] at ht
  rcases hhead with hhead | hlink
  · rw [hhead]
    by_cases heq : t = m.queue.head
    · exact Or.inl heq
    · exact Or.inr (Or.inr (hu.sometime hrun ht heq hs))
  · exact Or.inr (Or.inl (Or.inr hlink))

/-- A step of the consumer. -/
theorem UnderWay.dequeue (h : Run Step State.init tr s) (hrun : Run Step s seg m)
    (hu : UnderWay tr seg s m) : GoesOn tr seg s (dequeueStep m).1 (dequeueStep m).2 := by
  obtain ⟨g, C, hi, -⟩ := run_undelivered (h.append hrun)
  have hs := Step.dequeue m
  cases hd : m.deq with
  | none => exact absurd hd hu.inside
  | some pc =>
      obtain ⟨hlocal, -⟩ := hi.local_tail pc hd
      cases pc with
      | next t =>
          have hnone : m.pushing none = none := by rw [State.pushing, hd]
          unfold dequeueStep at hs ⊢
          rw [hd] at hs ⊢
          apply GoesOn.of_giveOr hs
          intro hnext hs
          exact hi.goesOn_loadHead hnone hlocal hnext hrun hs
      | loadHead t =>
          unfold dequeueStep at hs ⊢
          rw [hd] at hs ⊢
          dsimp only at hs ⊢
          split
          · next hne =>
              rw [if_pos hne] at hs
              exact Or.inr ⟨none, rfl, fun _ => hu.sometime hrun hd hne hs⟩
          · refine Or.inl ⟨rfl, Option.some_ne_none _, ?_⟩
            intro t' ht'
            cases ht'
      | push t pc =>
          unfold dequeueStep
          rw [hd]
          left
          -- no operation of `push` is a look at `head`
          cases pc with
          | _ =>
              refine ⟨rfl, Option.some_ne_none _, ?_⟩
              intro t' ht'
              cases ht'
      | recheck t =>
          -- the stub is behind `t` by now, and only a producer's link can be missing in between
          have hnone : m.pushing none = none := by rw [State.pushing, hd]
          have hapart : m.queue.tail ≠ m.queue.head := run_apart (h.append hrun) _ hd
          change t = m.queue.tail at hlocal
          subst hlocal
          unfold dequeueStep at hs ⊢
          rw [hd] at hs ⊢
          apply GoesOn.of_giveOr hs
          intro hnext hs
          have hlink : m.Linking := (hi.unlinked hnone hnext).resolve_left hapart
          exact Or.inr ⟨none, rfl, fun _ => Run.sometime_snoc hrun (Or.inl (Or.inr hlink)) hs⟩

/-- Another step, by anybody. -/
theorem UnderWay.step (h : Run Step State.init tr s) (hrun : Run Step s seg m)
    (hu : UnderWay tr seg s m) (hs : Step m e s') : GoesOn tr seg s e s' := by
  cases hs with
  | call hp hx => exact hu.producer hrun (.call hp hx) rfl rfl (Or.inl rfl)
  | enqueue hp =>
      rename_i p pc
      cases pc with
      | reset n => exact hu.producer hrun (.enqueue hp) rfl rfl (Or.inl rfl)
      | exchange n =>
          have hlink : (enqueueStep m p (.exchange n)).2.Linking :=
            ⟨p, n, m.queue.head, Function.update_self ..⟩
          exact hu.producer hrun (.enqueue hp) rfl rfl (Or.inr hlink)
      | link n prev => exact hu.producer hrun (.enqueue hp) rfl rfl (Or.inl rfl)
  | dequeue => exact hu.dequeue h hrun

/-- **A null has a reason.** -/
theorem Dequeues.excused (h : Run Step State.init tr s) (hcall : Dequeues s seg none s') :
    Run.Sometime Step (Excuse tr) s seg s' := by
  obtain ⟨rest, rfl, hrun⟩ := hcall.begins
  obtain ⟨mid, e, hseg, hmid, he⟩ := hcall.returns
  have hfirst := goesOn_first h hcall.outside
  cases mid with
  | nil =>
      obtain ⟨rfl, rfl⟩ := List.cons.inj hseg
      rw [Run.nil_iff.mp hrun]
      rcases hfirst with ⟨hnone, -⟩ | ⟨r, hr, hsometime⟩
      · rw [he] at hnone
        cases hnone
      · rw [he] at hr
        exact hsometime (Option.some.inj hr).symm
  | cons x mid =>
      obtain ⟨rfl, rfl⟩ := List.cons.inj hseg
      rw [List.forall_mem_cons] at hmid
      have hbegun : UnderWay tr [(dequeueStep s).1] s (dequeueStep s).2 := by
        rcases hfirst with ⟨-, hbegun⟩ | ⟨r, hr, -⟩
        · exact hbegun
        · rw [hmid.1] at hr
          cases hr
      refine Run.until_result (D := fun seg m => UnderWay tr ((dequeueStep s).1 :: seg) s m)
        (R := fun r seg m => r = none →
          Run.Sometime Step (Excuse tr) s ((dequeueStep s).1 :: seg) m) hbegun ?_ hrun hmid.2 he rfl
      intro seg m e m' hrun hu hs
      exact hu.step h (hrun.cons (.dequeue s)) hs

/-! ## The oldest item -/

omit [DecidableEq P] in
/-- While nothing is returned, what waits to be delivered keeps its place. -/
theorem undelivered_prefix (hseg : ∀ x ∈ seg, x.result? = none) :
    undelivered tr <+: undelivered (tr ++ seg) := by
  have hnone : seg.filterMap Event.dequeued? = [] := by
    rw [List.filterMap_eq_nil_iff]
    intro x hx
    have := hseg x hx
    cases x <;> first | rfl | cases this
  unfold undelivered delivered exchanged
  rw [List.filterMap_append, List.filterMap_append, hnone, List.append_nil, List.filter_append,
    List.drop_append]
  exact List.prefix_append ..

/-- A call that returns an item returns the oldest, if there is one when it begins. -/
theorem Dequeues.oldest {n x : Node T} {l : List (Node T)} (h : Run Step State.init tr s)
    (hcall : Dequeues s seg (some x) s') (hl : undelivered tr = n :: l) : x = n := by
  obtain ⟨mid, e, rfl, hmid, he⟩ := hcall.returns
  obtain ⟨m, hrun, hlast⟩ := hcall.run.split
  obtain ⟨g, C, hi, hleft⟩ := run_undelivered (h.append hrun)
  have hstep := step_inv ⟨C, hi⟩ (Run.single_iff.mp hlast)
  have hlog : e.logOp? = some (.pop x) := by
    cases e with
    | dequeued y =>
        cases he
        rfl
    | _ => cases he
  rw [hlog] at hstep
  obtain ⟨g', hpop, -⟩ := hstep
  obtain ⟨l', hl'⟩ : undelivered tr <+: undelivered (tr ++ mid) := undelivered_prefix hmid
  have hhead := hpop.pending_pop.1
  rw [← hleft, ← hl', hl, List.cons_append, List.head?_cons] at hhead
  exact (Option.some.inj hhead).symm

/-- What comes of calls of `dequeue` made in the state `s` that the run `tr` leads to. -/
structure Progress (tr : List (Event T P)) (s : State T P) : Prop where
  /-- A call that returns null found, at some moment, nothing to deliver or a link missing. -/
  null : ∀ seg s', Dequeues s seg none s' → Run.Sometime Step (Excuse tr) s seg s'
  /-- With something to deliver, a call that never finds a link missing returns the oldest item. -/
  oldest : ∀ seg r s' n l, Dequeues s seg r s' → undelivered tr = n :: l →
    ¬ Run.Sometime Step (fun _ m => m.Linking) s seg s' → r = some n
  /-- With nobody inside `push`, a call comes to its end, and returns the oldest item if any. -/
  lone : s.Quiescent → ∃ k seg s', exec move s (List.replicate k .dequeue) = some (seg, s') ∧
    seg.filterMap Event.result? = [(undelivered tr).head?]
  /-- With nobody inside `push`, the loop of the destructor is handed all the items, and then null.
  -/
  drain : s.Quiescent → ∃ k seg s', exec move s (List.replicate k .dequeue) = some (seg, s') ∧
    seg.filterMap Event.result? = (undelivered tr).map some ++ [none]
  /-- No item waits twice. -/
  once : (undelivered tr).Nodup

/-- **A null from `dequeue` has a reason**, whatever the producers, their items, the earlier calls
of `dequeue` and the interleaving. -/
theorem dequeue_progress (h : Run Step State.init tr s) : Progress tr s := by
  obtain ⟨g, C, hi, hleft⟩ := run_undelivered h
  refine ⟨?_, ?_, ?_, ?_, ?_⟩
  · intro seg s' hcall
    exact hcall.excused h
  · intro seg r s' n l hcall hl hnever
    cases r with
    | some x => rw [hcall.oldest h hl]
    | none =>
        obtain ⟨seg₁, m, seg₂, rfl, hne, h₁, hexcuse, h₂⟩ := hcall.excused h
        rcases hexcuse with hempty | hlink
        · -- nothing has been returned yet, so the oldest item is still there
          obtain ⟨mid, e, hseg, hmid, -⟩ := hcall.returns
          obtain ⟨mid₂, rfl⟩ : ∃ mid₂, mid = seg₁ ++ mid₂ := by
            obtain ⟨mid₂, e', rfl⟩ := (List.eq_nil_or_concat seg₂).resolve_left hne
            rw [List.concat_eq_append, ← List.append_assoc] at hseg
            exact ⟨mid₂, (List.append_inj' hseg rfl).1.symm⟩
          have hpre : undelivered tr <+: undelivered (tr ++ seg₁) :=
            undelivered_prefix fun x hx => hmid x (List.mem_append_left mid₂ hx)
          rw [hempty, hl] at hpre
          cases List.prefix_nil.mp hpre
        · exact absurd ⟨seg₁, m, seg₂, rfl, hne, h₁, hlink, h₂⟩ hnever
  · intro hq
    obtain ⟨k, seg, s', hexec, -, -, hret, hres, -⟩ := hi.lone_dequeue hq
    refine ⟨k, seg, s', hexec, ?_⟩
    rw [hres, hret, hleft]
  · intro hq
    rw [hleft]
    exact hi.drain hq
  · rw [hleft, hi.items, map_item_filterMap]
    exact hi.links.chain.nodup.filter _

/-- The consumer finds the first item last in its chain; then a producer gets between its load of
`next` and its load of `head`. -/
theorem dequeue_progress_race : ∃ (tr : List (Event Nat (Fin 2))) (s : State Nat (Fin 2)),
    Run Step State.init tr s ∧ tr.filterMap Event.result? = [none] ∧
      undelivered tr = [.item 1, .item 2] ∧ Progress tr s :=
  have h := Run.of_exec (step_of_move (T := Nat) (P := Fin 2))
    (show exec move State.init
      [.call 0 1, .enqueue 0, .enqueue 0, .enqueue 0, .dequeue, .dequeue, .call 1 2, .enqueue 1,
        .enqueue 1, .dequeue, .enqueue 1] = some _ from rfl)
  ⟨_, _, h, rfl, rfl, dequeue_progress h⟩

end Steps

end Shclog.UnboundedLinkedMPSCQ
