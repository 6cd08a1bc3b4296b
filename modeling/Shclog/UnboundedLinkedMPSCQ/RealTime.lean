import Shclog.UnboundedLinkedMPSCQ.Delivery

/-! # `UnboundedLinkedMPSCQ` is fair to who came first

The order of the exchanges on `head` is an order of calls, since what the consumer exchanges is
never an item. A call that has returned comes in it before every call that begins later. -/

namespace Shclog.UnboundedLinkedMPSCQ

open Lib

variable {T P : Type} [DecidableEq T] [DecidableEq P] {tr tr₁ tr₂ : List (Event T P)}
  {e : Event T P} {s s' : State T P} {c c' : Call P} {x : T} {n : Node T} {j : Nat}

/-! ## What is exchanged -/

/-- A step puts an item into the queue exactly when a producer's call does. -/
theorem step_filed {g : Log T} {C : List (Node T)} (hi : Inv s g C)
    (hitem : ∀ c n, e.filed? = some (c, n) → n ≠ .stub) (h : Step s e s') :
    (e.filed?.map Prod.snd).toList = e.exchanged?.toList.filter (· ≠ .stub) := by
  cases h with
  | call hp hx => rfl
  | enqueue hp =>
      rename_i p pc
      cases pc with
      | exchange n =>
          have hn : n ≠ .stub := hitem _ n rfl
          show [n] = [n].filter (· ≠ .stub)
          rw [List.filter_cons_of_pos (by simpa using hn)]
          rfl
      | reset n => rfl
      | link n prev => rfl
  | dequeue =>
      have hfiled : (dequeueStep s).1.filed? = none := (dequeueStep_frame s).2.2.2.1
      rw [hfiled]
      have hgive : ∀ t (otherwise : Event T P × State T P), otherwise.1.exchanged? = none →
          (giveOr s t otherwise).1.exchanged? = none := by
        intro t otherwise h
        unfold giveOr
        split
        · rfl
        · exact h
      have hstub : ∀ n, (dequeueStep s).1.exchanged? = some n → n = .stub := by
        intro n hn
        unfold dequeueStep at hn
        cases hd : s.deq with
        | none =>
            rw [hd] at hn
            dsimp only at hn
            split at hn
            · split at hn <;> cases hn
            · rw [hgive _ _ rfl] at hn
              cases hn
        | some pc =>
            rw [hd] at hn
            cases pc with
            | next t =>
                rw [hgive _ _ rfl] at hn
                cases hn
            | loadHead t =>
                dsimp only at hn
                split at hn <;> cases hn
            | push t pc =>
                cases pc with
                | exchange m =>
                    cases hn
                    exact hi.consumer t _ hd
                | reset m => cases hn
                | link m prev => cases hn
            | recheck t =>
                rw [hgive _ _ rfl] at hn
                cases hn
      cases he : (dequeueStep s).1.exchanged? with
      | none => rfl
      | some n =>
          rw [hstub n he]
          rfl

/-- **The order of the exchanges is an order of calls.** -/
theorem run_filed (h : Run Step State.init tr s) :
    (filed tr).map Prod.snd = (exchanged tr).filter (· ≠ .stub) := by
  refine h.invariant (I := fun tr _ => (filed tr).map Prod.snd =
    (exchanged tr).filter (· ≠ .stub)) rfl ?_
  intro tr s e s' hrun ih hs
  obtain ⟨g, C, hi, -⟩ := run_inv hrun
  have hitem : ∀ c n, e.filed? = some (c, n) → n ≠ .stub := by
    intro c n he
    have hmem := (run_calls (hrun.snoc hs)).filed_called c n
      (mem_filterMap_snoc.mpr (.inr he))
    obtain ⟨x, rfl, -⟩ := mem_called hmem
    intro h
    cases h
  have hstep := step_filed hi hitem hs
  rw [filed, exchanged, Run.filterMap_snoc, Run.filterMap_snoc, List.map_append, List.filter_append,
    ← filed, ← exchanged, ih, ← hstep]
  cases e.filed? <;> rfl

/-! ## Calls begin one after the other -/

theorem begun_step (h : Step s e s') (c : Call P) (hc : Begun s.calls s.enq c) :
    Begun s'.calls s'.enq c := by
  cases h with
  | call hp hx => exact hc.goto
  | enqueue hp =>
      rename_i p pc
      cases pc with
      | link n prev => exact hc.leave
      | _ => exact hc.goto
  | dequeue =>
      obtain ⟨henq, hcalls, -⟩ := dequeueStep_frame s
      rw [henq, hcalls]
      exact hc

theorem called_new (h : Step s e s') (c : Call P) (n : Node T) (he : e.called? = some (c, n)) :
    ¬ Begun s.calls s.enq c := by
  cases h with
  | call hp hx =>
      cases he
      rintro (hlt | ⟨-, hne⟩)
      · exact Nat.lt_irrefl _ hlt
      · exact hne hp
  | enqueue hp =>
      rename_i p pc
      cases pc <;> cases he
  | dequeue =>
      rw [(dequeueStep_frame s).2.2.1] at he
      cases he

/-! ## The theorem -/

/-- **First come, first served**: the item of a call that had returned before another began is
returned by `dequeue` before the other's, whatever links were missing in between. -/
theorem hands_out_in_real_time (h : Run Step State.init (tr₁ ++ tr₂) s)
    (hret : .linked (some c) ∈ tr₁) (hcall : .called c' x ∈ tr₂)
    (hj : (filed (tr₁ ++ tr₂))[j]? = some (c', n)) :
    ∃ i m, i < j ∧ (filed (tr₁ ++ tr₂))[i]? = some (c, m) ∧
      (j < (delivered (tr₁ ++ tr₂)).length →
        (delivered (tr₁ ++ tr₂))[j]? = some n ∧ (delivered (tr₁ ++ tr₂))[i]? = some m) := by
  have hread : delivered (tr₁ ++ tr₂) = ((filed (tr₁ ++ tr₂)).take
      (delivered (tr₁ ++ tr₂)).length).map Prod.snd := by
    obtain ⟨g, C, -, -, -, hdel⟩ := run_inv h
    rw [List.map_take, run_filed h, ← map_item_filterMap, ← List.map_take]
    exact hdel
  obtain ⟨m, hm, hrest⟩ := h.split
  obtain ⟨i, w, hij, hi⟩ := (run_calls hm).before (U := fun s => Begun s.calls s.enq)
    (fun _ _ _ hs => begun_step hs) (fun _ _ _ hs => called_new hs) hrest
    (List.mem_filterMap.mpr ⟨_, hret, rfl⟩) (List.mem_filterMap.mpr ⟨_, hcall, rfl⟩) hj
  refine ⟨i, w, hij, hi, ?_⟩
  intro hlt
  constructor
  · rw [hread, List.getElem?_map, List.getElem?_take_of_lt hlt, hj]
    rfl
  · rw [hread, List.getElem?_map, List.getElem?_take_of_lt (Nat.lt_trans hij hlt)]
    exact congrArg (Option.map Prod.snd) hi

/-- A third producer's link is missing while the second call begins and returns. -/
theorem hands_out_in_real_time_race : ∃ (tr₁ tr₂ : List (Event Nat (Fin 3))) (s : State Nat (Fin 3)),
    Run Step State.init (tr₁ ++ tr₂) s ∧
      delivered (tr₁ ++ tr₂) = [.item 1, .item 3, .item 2] ∧
      ∃ i m, i < 2 ∧ (filed (tr₁ ++ tr₂))[i]? = some ((0, 0), m) ∧
        (2 < (delivered (tr₁ ++ tr₂)).length →
          (delivered (tr₁ ++ tr₂))[2]? = some (.item 2) ∧
            (delivered (tr₁ ++ tr₂))[i]? = some m) :=
  have h₁ := Run.of_exec (step_of_move (T := Nat) (P := Fin 3))
    (show exec move State.init
      [.call 0 1, .enqueue 0, .enqueue 0, .call 2 3, .enqueue 2, .enqueue 2, .enqueue 0]
        = some _ from rfl)
  have h₂ := Run.of_exec (step_of_move (T := Nat) (P := Fin 3))
    (show exec move _
      [.call 1 2, .enqueue 1, .enqueue 1, .enqueue 1, .enqueue 2, .dequeue, .dequeue, .dequeue,
        .dequeue, .dequeue, .dequeue, .dequeue, .dequeue, .dequeue] = some _ from rfl)
  ⟨_, _, _, h₁.append h₂, rfl,
    hands_out_in_real_time (h₁.append h₂)
      (show Event.linked (some (0, 0)) ∈ _ from List.mem_of_getLast? rfl)
      (show Event.called (1, 0) 2 ∈ _ from List.mem_of_mem_head? rfl) rfl⟩

end Shclog.UnboundedLinkedMPSCQ
