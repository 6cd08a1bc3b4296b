import Shclog.EventedIo.Submission
import Shclog.EventedIo.Completion
import Shclog.Lib.Jobs

/-! # Requests and their results

The kernel works on the requests that it has read and posts a result for each, in whatever order it
is done with them; the results do not say whose they are. Here the kernel's part is told apart from
the ring: `Serving` knows which requests it is working on, and a step that posts a result shows
which one it is for. -/

namespace Shclog.EventedIo

open Lib

/-- The ring, how many requests the kernel has read, and those that it has not posted a result
for. -/
structure Serving where
  ring : State
  read : Nat
  running : List (Sqe × Nat)

/-- What a step of the ring shows; where a request is read or a result is posted, the request that it
is about, too. -/
abbrev Shown := Event × Option (Sqe × Nat)

/-- A step of the ring, where the kernel posts nothing but the results of requests. -/
inductive Serves : Serving → Shown → Serving → Prop
  | consume {s : Serving} {sqe : Sqe} {r : State} (h : Step s.ring (.consumed sqe) r) :
      Serves s (.consumed sqe, some (sqe, s.read)) ⟨r, s.read + 1, s.running ++ [(sqe, s.read)]⟩
  | post {s : Serving} {x : Sqe × Nat} {res : I32} {r : State} (hx : x ∈ s.running)
      (h : Step s.ring (.posted res) r) :
      Serves s (.posted res, some x) ⟨r, s.read, s.running.erase x⟩
  | other {s : Serving} {e : Event} {r : State} (hconsumed : e.consumed? = none)
      (hposted : e.posted? = none) (h : Step s.ring e r) :
      Serves s (e, none) { s with ring := r }

/-- The step that is made by a move of the ring; where a result is posted, it is for the request that
stands at the given place. -/
def Serving.next (s : Serving) (m : Move × Nat) : Option (Shown × Serving) :=
  match move s.ring m.1 with
  | none => none
  | some (.consumed sqe, r) =>
    some ((.consumed sqe, some (sqe, s.read)), ⟨r, s.read + 1, s.running ++ [(sqe, s.read)]⟩)
  | some (.posted res, r) =>
    s.running[m.2]?.map fun x => ((.posted res, some x), ⟨r, s.read, s.running.erase x⟩)
  | some (e, r) => some ((e, none), { s with ring := r })

theorem Serving.serves_of_next (s : Serving) (m : Move × Nat) (e : Shown) (s' : Serving)
    (h : s.next m = some (e, s')) : Serves s e s' := by
  unfold Serving.next at h
  split at h
  · cases h
  · next sqe r hm =>
      cases h
      exact .consume (step_of_move _ _ _ _ hm)
  · next res r hm =>
      obtain ⟨x, hx, he⟩ := Option.map_eq_some_iff.mp h
      cases he
      exact .post (List.mem_of_getElem? hx) (step_of_move _ _ _ _ hm)
  · next e r hconsumed hposted hm =>
      cases h
      have hstep := step_of_move _ _ _ _ hm
      cases e with
      | consumed sqe => exact absurd rfl (hconsumed sqe)
      | posted res => exact absurd rfl (hposted res)
      | _ => exact .other rfl rfl hstep

/-- Nothing is in progress. -/
def rest (q : EventedIo) : Serving := ⟨idle q, 0, []⟩

/-- The result of a request. -/
def Shown.answered? : Shown → Option ((Sqe × Nat) × I32)
  | (.posted res, some x) => some (x, res)
  | _ => none

/-- What a run shows of the ring. -/
def events (tr : List Shown) : List Event := tr.map Prod.fst

/-- The results posted in a run, each with the request it is for. -/
def answered (tr : List Shown) : List ((Sqe × Nat) × I32) := tr.filterMap Shown.answered?

/-- Whenever a request is published, the results of all others have been taken. -/
def OneAtATime (tr : List Event) : Prop :=
  ∀ tr₁, tr₁ <+: tr → (published tr₁).length ≤ (taken tr₁).length + 1

section

variable {q : EventedIo} {s s' s₀ : Serving} {e : Shown} {tr : List Shown}

@[simp] theorem events_snoc (tr : List Shown) (e : Shown) : events (tr ++ [e]) = events tr ++ [e.1] :=
  List.map_append

theorem answered_snoc (tr : List Shown) (e : Shown) :
    answered (tr ++ [e]) = answered tr ++ e.answered?.toList :=
  Run.filterMap_snoc ..

theorem consumed_snoc (tr : List Event) (e : Event) :
    consumed (tr ++ [e]) = consumed tr ++ e.consumed?.toList :=
  Run.filterMap_snoc ..

theorem posted_snoc (tr : List Event) (e : Event) :
    posted (tr ++ [e]) = posted tr ++ e.posted?.toList :=
  Run.filterMap_snoc ..

theorem Serves.step (h : Serves s e s') : Step s.ring e.1 s'.ring := by
  cases h with
  | consume h => exact h
  | post _ h => exact h
  | other _ _ h => exact h

theorem ring_run (h : Run Serves s₀ tr s) : Run Step s₀.ring (events tr) s.ring := by
  induction h with
  | nil => exact .nil
  | snoc _ hs ih =>
      rw [events_snoc]
      exact ih.snoc hs.step

/-- What the kernel has read it is working on or has posted a result for. -/
structure Serving.Inv (tr : List Shown) (s : Serving) : Prop where
  read : s.read = (consumed (events tr)).length
  jobs : Jobs (consumed (events tr)) s.running (answered tr)
  posted : posted (events tr) = (answered tr).map Prod.snd

theorem Serving.Inv.step (hi : s.Inv tr) (h : Serves s e s') : s'.Inv (tr ++ [e]) := by
  cases h with
  | @consume sqe r h =>
      have hconsumed : consumed (events (tr ++ [(.consumed sqe, some (sqe, s.read))])) =
          consumed (events tr) ++ [sqe] := by
        rw [events_snoc, consumed_snoc]
        rfl
      have hanswered : answered (tr ++ [(.consumed sqe, some (sqe, s.read))]) = answered tr := by
        rw [answered_snoc]
        exact List.append_nil _
      refine ⟨?_, ?_, ?_⟩
      · rw [hconsumed, List.length_append, ← hi.read]
        rfl
      · rw [hconsumed, hanswered, hi.read]
        exact hi.jobs.take sqe
      · rw [events_snoc, posted_snoc, hanswered, hi.posted]
        exact List.append_nil _
  | @post x res r hx h =>
      have hconsumed : consumed (events (tr ++ [(.posted res, some x)])) =
          consumed (events tr) := by
        rw [events_snoc, consumed_snoc]
        exact List.append_nil _
      have hanswered : answered (tr ++ [(.posted res, some x)]) = answered tr ++ [(x, res)] := by
        rw [answered_snoc]
        rfl
      refine ⟨?_, ?_, ?_⟩
      · rw [hconsumed]
        exact hi.read
      · rw [hconsumed, hanswered]
        exact hi.jobs.finish hx res
      · rw [events_snoc, posted_snoc, hanswered, hi.posted, List.map_append]
        rfl
  | @other e r hconsumed hposted h =>
      have hnone : Shown.answered? (e, none) = none := by
        cases e <;> rfl
      refine ⟨?_, ?_, ?_⟩
      · rw [events_snoc, consumed_snoc, hconsumed]
        simpa using hi.read
      · rw [events_snoc, consumed_snoc, hconsumed, answered_snoc, hnone]
        simpa using hi.jobs
      · rw [events_snoc, posted_snoc, hposted, answered_snoc, hnone]
        simpa using hi.posted

theorem run_serving (h : Run Serves (rest q) tr s) : s.Inv tr := by
  refine h.invariant (I := fun tr s => s.Inv tr) ⟨rfl, Jobs.nil, rfl⟩ ?_
  intro tr s e s' _ hi hs
  exact hi.step hs

/-! ## What becomes of the requests -/

/-- What was published is there as it was published, and was read in that order. -/
theorem run_published (hq : q.SqSetUp) (h : Run Serves (rest q) tr s) :
    consumed (events tr) ++ s.ring.unread = (published (events tr)).map Request.sqe := by
  obtain ⟨k, h₀⟩ := hq.inv
  have hflow := run_sqFlow (s := idle q) h₀ (ring_run h)
  have hnil : (idle q).unread = [] := by
    rw [State.unread, List.drop_eq_nil_iff, Sq.length_pending]
    exact Nat.le_of_eq (eq_iff_toNat_sub.mp hq.start)
  rwa [hnil, List.nil_append] at hflow

/-- What was posted was taken, in that order, or is in the ring. -/
theorem run_posted (hq : q.CqSetUp) (h : Run Serves (rest q) tr s) :
    taken (events tr) ++ s.ring.undelivered = (answered tr).map Prod.snd := by
  obtain ⟨c, h₀⟩ := hq.inv
  have hflow := run_cqFlow (s := idle q) h₀ (ring_run h)
  have hnil : (idle q).undelivered = [] := by
    apply List.eq_nil_of_length_eq_zero
    show (ringFrom _ _ _ _).length = 0
    rw [length_ringFrom]
    exact eq_iff_toNat_sub.mp hq.start
  rwa [hnil, List.nil_append, (run_serving h).posted] at hflow

/-- **Nothing is lost.** A request that was published and whose result was not taken has not been
read, or is being worked on, or its result is in the ring. -/
theorem run_kept (hsq : q.SqSetUp) (hcq : q.CqSetUp) (h : Run Serves (rest q) tr s) :
    (published (events tr)).length = s.ring.unread.length + s.running.length +
      s.ring.undelivered.length + (taken (events tr)).length := by
  have hpub := congrArg List.length (run_published hsq h)
  have hpost := congrArg List.length (run_posted hcq h)
  have hjobs := (run_serving h).jobs.length
  simp only [List.length_append, List.length_map] at hpub hpost
  omega

/-- What is posted in turn is the result of the request that was published in that turn. -/
theorem run_inOrder (hsq : q.SqSetUp) (hcq : q.CqSetUp) (h : Run Serves (rest q) tr s)
    (hone : OneAtATime (events tr)) : Jobs.InOrder (consumed (events tr)) (answered tr) := by
  induction h with
  | nil => exact Jobs.inOrder_nil _
  | @snoc tr s e s' hrun hs ih =>
      have hi := run_serving hrun
      have hpre : OneAtATime (events tr) := by
        intro tr₁ htr₁
        apply hone tr₁
        rw [events_snoc]
        exact htr₁.trans (List.prefix_append _ _)
      have ho := ih hpre
      have hle : (answered tr).length ≤ (consumed (events tr)).length := by
        have := hi.jobs.length
        omega
      cases hs with
      | @consume sqe r hs =>
          rw [events_snoc, consumed_snoc, answered_snoc, show (Shown.answered? _).toList = [] from rfl,
            List.append_nil]
          exact ho.take hle sqe
      | @post x res r hx hs =>
          rw [events_snoc, consumed_snoc, answered_snoc,
            show (Event.consumed? _).toList = [] from rfl, List.append_nil]
          refine ho.finish hi.jobs ?_ hx res
          -- the results of all but one have been taken, hence posted
          have hone := hpre (events tr) (List.prefix_refl _)
          have hpub := congrArg List.length (run_published hsq hrun)
          have hpost := congrArg List.length (run_posted hcq hrun)
          simp only [List.length_append, List.length_map] at hpub hpost
          omega
      | @other e r hconsumed hposted hs =>
          have hnone : Shown.answered? (e, none) = none := by
            cases e <;> rfl
          rw [events_snoc, consumed_snoc, hconsumed, answered_snoc, hnone]
          simpa using ho

end

/-- Where the `i`th request to be published, `sqe`, has got to in the run `tr` to `s`. -/
inductive Whereabouts (tr : List Shown) (s : Serving) (i : Nat) (sqe : Sqe) : Prop
  /-- the kernel has not read it; -/
  | unread (hle : (consumed (events tr)).length ≤ i)
      (h : s.ring.unread[i - (consumed (events tr)).length]? = some sqe)
  /-- the kernel is working on it; -/
  | running (h : (sqe, i) ∈ s.running)
  /-- its result is in the ring; -/
  | undelivered {j : Nat} {res : I32} (hpost : (answered tr)[j]? = some ((sqe, i), res))
      (hle : (taken (events tr)).length ≤ j)
      (h : s.ring.undelivered[j - (taken (events tr)).length]? = some res)
  /-- a pop has taken its result. -/
  | taken {j : Nat} {res : I32} (hpost : (answered tr)[j]? = some ((sqe, i), res))
      (h : (taken (events tr))[j]? = some res)

/-- What becomes of the requests to the ring `q` in the run `tr` to `s`. -/
structure Answered (q : EventedIo) (tr : List Shown) (s : Serving) : Prop where
  /-- a result is that of a request that was published; -/
  whose : ∀ sqe (i : Nat) res, ((sqe, i), res) ∈ answered tr →
    ∃ r : Request, (published (events tr))[i]? = some r ∧ sqe = r.sqe
  /-- no request gets two; -/
  once : ((answered tr).map fun d => d.1.2).Nodup
  /-- what pops take are these results in the order they were posted; -/
  order : taken (events tr) <+: (answered tr).map Prod.snd
  /-- no request is lost, -/
  whereabouts : ∀ (i : Nat) (r : Request), (published (events tr))[i]? = some r →
    Whereabouts tr s i r.sqe
  /-- and none is in two places; -/
  kept : (published (events tr)).length = s.ring.unread.length + s.running.length +
    s.ring.undelivered.length + (taken (events tr)).length
  /-- and if there is never more than one, each pop takes the result of the request published in
  its turn. -/
  turn : OneAtATime (events tr) → ∀ (i : Nat) res, (taken (events tr))[i]? = some res →
    ∃ r : Request, (published (events tr))[i]? = some r ∧
      (answered tr)[i]? = some ((r.sqe, i), res)

section

variable {q : EventedIo} {s : Serving} {tr : List Shown}

theorem getElem?_published (hq : q.SqSetUp) (h : Run Serves (rest q) tr s) {i : Nat} {sqe : Sqe}
    (hi : (consumed (events tr))[i]? = some sqe) :
    ∃ r : Request, (published (events tr))[i]? = some r ∧ sqe = r.sqe := by
  have hlt := (List.getElem?_eq_some_iff.mp hi).1
  rw [← List.getElem?_append_left hlt, run_published hq h, List.getElem?_map,
    Option.map_eq_some_iff] at hi
  obtain ⟨r, hr, rfl⟩ := hi
  exact ⟨r, hr, rfl⟩

/-- The result of a request is in the ring until a pop takes it. -/
theorem whereabouts_of_answered (hq : q.CqSetUp) (h : Run Serves (rest q) tr s) {i : Nat} {sqe : Sqe}
    {res : I32} (hmem : ((sqe, i), res) ∈ answered tr) : Whereabouts tr s i sqe := by
  obtain ⟨j, hj⟩ := List.mem_iff_getElem?.mp hmem
  have hres : (taken (events tr) ++ s.ring.undelivered)[j]? = some res := by
    rw [run_posted hq h, List.getElem?_map, hj]
    rfl
  by_cases hlt : j < (taken (events tr)).length
  · rw [List.getElem?_append_left hlt] at hres
    exact .taken hj hres
  · rw [List.getElem?_append_right (Nat.le_of_not_lt hlt)] at hres
    exact .undelivered hj (Nat.le_of_not_lt hlt) hres

/-- **No request is lost.** -/
theorem whereabouts (hsq : q.SqSetUp) (hcq : q.CqSetUp) (h : Run Serves (rest q) tr s) {i : Nat}
    {r : Request} (hr : (published (events tr))[i]? = some r) : Whereabouts tr s i r.sqe := by
  have hsqe : (consumed (events tr) ++ s.ring.unread)[i]? = some r.sqe := by
    rw [run_published hsq h, List.getElem?_map, hr]
    rfl
  -- requests are read in the order they were published, so their number says if it was read
  by_cases hlt : i < (consumed (events tr)).length
  · rw [List.getElem?_append_left hlt] at hsqe
    rcases (run_serving h).jobs.mem hsqe with hrun | ⟨res, hdone⟩
    · exact .running hrun
    · exact whereabouts_of_answered hcq h hdone
  · rw [List.getElem?_append_right (Nat.le_of_not_lt hlt)] at hsqe
    exact .unread (Nat.le_of_not_lt hlt) hsqe

/-- **Every result is the result of one request**, and no request is lost, in whatever order the
kernel is done with them. -/
theorem every_result_answers (hsq : q.SqSetUp) (hcq : q.CqSetUp) (h : Run Serves (rest q) tr s) :
    Answered q tr s := by
  have hi := run_serving h
  refine ⟨?_, hi.jobs.nodup_done, ⟨_, run_posted hcq h⟩, fun i r hr => whereabouts hsq hcq h hr,
    run_kept hsq hcq h, ?_⟩
  · intro sqe i res hmem
    exact getElem?_published hsq h (hi.jobs.getElem? (.inr (List.mem_map_of_mem hmem)))
  · intro hone i res htaken
    have hpost : ((answered tr).map Prod.snd)[i]? = some res := by
      rw [← run_posted hcq h]
      exact List.getElem?_append_left (List.getElem?_eq_some_iff.mp htaken).1 ▸ htaken
    rw [List.getElem?_map, Option.map_eq_some_iff] at hpost
    obtain ⟨⟨x, res'⟩, hget, rfl⟩ := hpost
    have hlt := (List.getElem?_eq_some_iff.mp hget).1
    have hnum : (consumed (events tr)).zipIdx[i]? = some x := by
      rw [← List.getElem?_take_of_lt hlt, ← run_inOrder hsq hcq h hone, List.getElem?_map, hget]
      rfl
    rw [List.getElem?_zipIdx, Option.map_eq_some_iff] at hnum
    obtain ⟨sqe, hsqe, rfl⟩ := hnum
    obtain ⟨r, hr, rfl⟩ := getElem?_published hsq h hsqe
    refine ⟨r, hr, ?_⟩
    rw [hget, Nat.zero_add]

end

/-- Two writes are read, and the kernel is done with the second one first. -/
def swapped : Option (List Shown × Serving) :=
  exec Serving.next (rest (fresh 1 0 false))
    ((Move.pushCall (writeFrom 0), 0) :: List.replicate 13 (.push true, 0) ++
      (.pushCall (writeFrom 16), 0) :: List.replicate 13 (.push true, 0) ++
      [(.consume, 0), (.consume, 0), (.release 2, 0), (.post 7, 1), (.post 16, 0),
      (.commit 2, 0)] ++
      (.popCall .write, 0) :: List.replicate 5 (.pop true, 0) ++
      (.popCall .write, 0) :: List.replicate 5 (.pop true, 0))

theorem swapped_isSome : swapped.isSome = true := by decide +kernel

/-- Their results come in that order. -/
theorem every_result_answers_swapped : ∃ tr s, Run Serves (rest (fresh 1 0 false)) tr s ∧
    taken (events tr) = [7, 16] ∧
    answered tr = [(((writeFrom 16).sqe, 1), 7), (((writeFrom 0).sqe, 0), 16)] ∧
    Answered (fresh 1 0 false) tr s := by
  have h := Run.of_exec_isSome Serving.serves_of_next swapped_isSome
  exact ⟨_, _, h, by decide +kernel, by decide +kernel,
    every_result_answers ⟨⟨1, by decide, rfl⟩, rfl⟩ ⟨⟨1, by decide, rfl⟩, rfl⟩ h⟩

end Shclog.EventedIo
