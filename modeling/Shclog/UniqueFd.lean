import Mathlib.Data.Fintype.Basic
import Mathlib.Logic.ExistsUnique
import Mathlib.Logic.Function.Basic
import Shclog.Lib.Custody
import Shclog.Types

/-! # `unique_fd`

The class of `file.hpp`, any number of its objects together, and the descriptors that are open. The
descriptors are opened by the rest of the program, which may also close those that no object holds.
For each descriptor the program is a run of the custody protocol: it is taken where the program gives
it to a constructor or to `reset`, and moves do not show. An error of `close` is passed over, as it is
in a release build. -/

namespace Shclog

open Lib

/-- `fd_t`. -/
abbrev Fd := I32

def invalidFd : Fd := -1

namespace UniqueFd

variable {O : Type} [DecidableEq O]

/-- The objects that are alive, with the descriptor of each, and the descriptors that are open. -/
structure Objects (O : Type) where
  live : O → Option Fd
  isOpen : Fd → Bool

/-- What the rest of the program can see of an operation. -/
inductive Event (O : Type) where
  | opened (fd : Fd)
  | closed (o : O) (fd : Fd)
  | released (o : O) (fd : Fd)
  | closedElsewhere (fd : Fd)

namespace Objects

/-- `get`. -/
def get (s : Objects O) (o : O) : Fd := (s.live o).getD invalidFd

/-- `this->fd = fd`. -/
def set (s : Objects O) (o : O) (fd : Fd) : Objects O :=
  { s with live := Function.update s.live o (some fd) }

/-- `close`, called by the object `o`. -/
def close (s : Objects O) (o : O) (fd : Fd) : List (Event O) × Objects O :=
  ([.closed o fd], { s with isOpen := Function.update s.isOpen fd false })

/-- `if (fd != -1) close(fd)`. -/
def closeOwn (s : Objects O) (o : O) : List (Event O) × Objects O :=
  if s.get o ≠ invalidFd then s.close o (s.get o) else ([], s)

/-- `unique_fd(fd)`. -/
def construct (s : Objects O) (o : O) (fd : Fd) : List (Event O) × Objects O := ([], s.set o fd)

/-- `fd(std::exchange(other.fd, -1))`. -/
def steal (s : Objects O) (o other : O) : Objects O :=
  (s.set o (s.get other)).set other invalidFd

/-- `unique_fd(unique_fd &&other)`. -/
def moveConstruct (s : Objects O) (o other : O) : List (Event O) × Objects O :=
  ([], s.steal o other)

/-- `reset(fd)`. -/
def reset (s : Objects O) (o : O) (fd : Fd) : List (Event O) × Objects O :=
  let (evs, s) := s.closeOwn o
  (evs, s.set o fd)

/-- `operator=(unique_fd &&other)`. -/
def moveAssign (s : Objects O) (o other : O) : List (Event O) × Objects O :=
  if o ≠ other then
    let (evs, s) := s.reset o invalidFd
    (evs, s.steal o other)
  else ([], s)

/-- `release`. -/
def release (s : Objects O) (o : O) : List (Event O) × Objects O :=
  (if s.get o ≠ invalidFd then [.released o (s.get o)] else [], s.set o invalidFd)

/-- `~unique_fd()`. -/
def destroy (s : Objects O) (o : O) : List (Event O) × Objects O :=
  let (evs, s) := s.closeOwn o
  (evs, { s with live := Function.update s.live o none })

end Objects

/-- An operation on objects, or what the rest of the program does to a descriptor. -/
inductive Op (O : Type) where
  | construct (o : O) (fd : Fd)
  | moveConstruct (o other : O)
  | moveAssign (o other : O)
  | reset (o : O) (fd : Fd)
  | release (o : O)
  | destroy (o : O)
  | openElsewhere (fd : Fd)
  | closeElsewhere (fd : Fd)

/-- The descriptor that the operation gives to an object, if any. -/
def Op.given? : Op O → Option Fd
  | construct _ fd | reset _ fd => if fd ≠ invalidFd then some fd else none
  | _ => none

def Op.effect (s : Objects O) : Op O → List (Event O) × Objects O
  | construct o fd => s.construct o fd
  | moveConstruct o other => s.moveConstruct o other
  | moveAssign o other => s.moveAssign o other
  | reset o fd => s.reset o fd
  | release o => s.release o
  | destroy o => s.destroy o
  | openElsewhere fd => ([.opened fd], { s with isOpen := Function.update s.isOpen fd true })
  | closeElsewhere fd =>
      ([.closedElsewhere fd], { s with isOpen := Function.update s.isOpen fd false })

namespace Objects

/-- It is open, and no object holds it. -/
def Free (s : Objects O) (fd : Fd) : Prop := s.isOpen fd = true ∧ ∀ o, s.live o ≠ some fd

end Objects

/-- Objects are used between their construction and their destruction, and a descriptor is given to
one only while it is free. -/
def Op.Allowed (s : Objects O) : Op O → Prop
  | construct o fd => s.live o = none ∧ (fd ≠ invalidFd → s.Free fd)
  | moveConstruct o other => s.live o = none ∧ s.live other ≠ none
  | moveAssign o other => s.live o ≠ none ∧ s.live other ≠ none
  | reset o fd => s.live o ≠ none ∧ (fd ≠ invalidFd → s.Free fd)
  | release o => s.live o ≠ none
  | destroy o => s.live o ≠ none
  | openElsewhere fd => fd ≠ invalidFd ∧ s.isOpen fd = false
  | closeElsewhere fd => fd ≠ invalidFd ∧ s.Free fd

/-- One operation of a program, with what can be seen of it. -/
def Step (s : Objects O) (e : Op O × List (Event O)) (s' : Objects O) : Prop :=
  e.1.Allowed s ∧ e.1.effect s = (e.2, s')

/-- No object yet. -/
def start (O : Type) (isOpen : Fd → Bool) : Objects O := ⟨fun _ => none, isOpen⟩

/-! ## One descriptor -/

variable {s s' : Objects O} {o other : O} {fd : Fd} {c : Custody} {tr tr' : List Custody.Event}

/-- What an event is to the descriptor `fd`, if anything. -/
def about (fd : Fd) : Event O → Option Custody.Event
  | .opened fd' => if fd' = fd then some .opened else none
  | .closed _ fd' => if fd' = fd then some .closed else none
  | .released _ fd' => if fd' = fd then some .released else none
  | .closedElsewhere fd' => if fd' = fd then some .closedElsewhere else none

/-- What an operation does to the descriptor `fd`: what is seen of it, and then that it is given
away. -/
def shows (fd : Fd) (e : Op O × List (Event O)) : List Custody.Event :=
  e.2.filterMap (about fd) ++ if e.1.given? = some fd then [.adopted] else []

/-- How a descriptor is kept. -/
structure Kept (s : Objects O) (fd : Fd) (c : Custody) : Prop where
  closed_iff : c = .closed ↔ s.isOpen fd = false
  held_iff : c = .held ↔ ∃ o, s.live o = some fd
  unique : ∀ o p, s.live o = some fd → s.live p = some fd → o = p

/-- What happens to the descriptor from `s` to `s'` is a run of the protocol. -/
def Follows (fd : Fd) (s : Objects O) (tr : List Custody.Event) (s' : Objects O) : Prop :=
  ∀ c, Kept s fd c → ∃ c', Run Custody.Step c tr c' ∧ Kept s' fd c'

omit [DecidableEq O] in
theorem Follows.trans {s₁ : Objects O} (h : Follows fd s tr s₁) (h' : Follows fd s₁ tr' s') :
    Follows fd s (tr ++ tr') s' := by
  intro c hc
  obtain ⟨c₁, hrun, hc₁⟩ := h c hc
  obtain ⟨c', hrun', hc'⟩ := h' c₁ hc₁
  exact ⟨c', hrun.append hrun', hc'⟩

omit [DecidableEq O] in
/-- Nothing happens to the descriptor. -/
theorem Follows.frame (hopen : s'.isOpen fd = s.isOpen fd)
    (hlive : ∀ p, s'.live p = some fd ↔ s.live p = some fd)
    (htr : tr = []) : Follows fd s tr s' := by
  intro c hc
  rw [htr]
  refine ⟨c, .nil, ?_, ?_, ?_⟩
  · rw [hopen]
    exact hc.closed_iff
  · simp only [hlive]
    exact hc.held_iff
  · simp only [hlive]
    exact hc.unique

/-- The object holds no descriptor. -/
def Objects.Vacant (s : Objects O) (o : O) : Prop := ∀ fd, fd ≠ invalidFd → s.live o ≠ some fd

omit [DecidableEq O] in
theorem get_eq_iff (hfd : fd ≠ invalidFd) : s.get o = fd ↔ s.live o = some fd := by
  unfold Objects.get
  cases hlive : s.live o with
  | none => simp [Ne.symm hfd]
  | some fd' => simp

omit [DecidableEq O] in
theorem Kept.idle_of_free (hc : Kept s fd c) (h : s.Free fd) : c = .idle ∨ c = .released := by
  have hclosed : c ≠ .closed := by
    rw [Ne, hc.closed_iff, h.1]
    decide
  have hheld : c ≠ .held := by
    rw [Ne, hc.held_iff]
    simpa using h.2
  cases c with
  | idle => exact .inl rfl
  | released => exact .inr rfl
  | held => exact absurd rfl hheld
  | closed => exact absurd rfl hclosed

/-- **An object gives up what it holds**, and with it the descriptor, if that is what it holds. -/
theorem Follows.give {e : Custody.Event} {c' : Custody} (hfd : fd ≠ invalidFd)
    (he : Custody.Step .held e c') (hc' : c' ≠ .held)
    (hheld : s.live o = some fd → s.isOpen fd = true →
      tr = [e] ∧ (c' = .closed ↔ s'.isOpen fd = false))
    (hother : s.live o ≠ some fd → tr = [] ∧ s'.isOpen fd = s.isOpen fd)
    (hvacant : s'.Vacant o) (hlive : ∀ p, p ≠ o → s'.live p = s.live p) :
    Follows fd s tr s' := by
  by_cases ho : s.live o = some fd
  · intro c hc
    obtain rfl : c = .held := hc.held_iff.mpr ⟨o, ho⟩
    have hisOpen : s.isOpen fd = true := by
      rw [← Bool.not_eq_false, ← hc.closed_iff]
      decide
    obtain ⟨hevs, hopen⟩ := hheld ho hisOpen
    have hnone : ∀ p, s'.live p ≠ some fd := by
      intro p hp
      by_cases hpo : p = o
      · exact hvacant fd hfd (hpo ▸ hp)
      · rw [hlive p hpo] at hp
        exact hpo (hc.unique p o hp ho)
    refine ⟨c', hevs ▸ Run.single he, hopen, ?_, ?_⟩
    · simp [hnone, hc']
    · intro p q hp
      exact absurd hp (hnone p)
  · obtain ⟨hevs, hopen⟩ := hother ho
    refine Follows.frame hopen ?_ hevs
    intro p
    by_cases hpo : p = o
    · subst hpo
      exact iff_of_false (hvacant fd hfd) ho
    · rw [hlive p hpo]

/-- What an object holds is closed when it gives it up. -/
theorem follows_closeOwn (hfd : fd ≠ invalidFd) (hopen : s'.isOpen = (s.closeOwn o).2.isOpen)
    (hvacant : s'.Vacant o) (hlive : ∀ p, p ≠ o → s'.live p = s.live p) :
    Follows fd s ((s.closeOwn o).1.filterMap (about fd)) s' := by
  refine Follows.give hfd .closed (by decide) ?_ ?_ hvacant hlive
  · intro ho _
    have hclose : s.closeOwn o = s.close o fd := by
      rw [Objects.closeOwn, (get_eq_iff hfd).mpr ho, if_pos hfd]
    rw [hopen, hclose]
    simp [Objects.close, about]
  · intro ho
    have hown : s.get o ≠ fd := fun h => ho ((get_eq_iff hfd).mp h)
    rw [hopen, Objects.closeOwn]
    split
    · exact ⟨by simp [Objects.close, about, hown], Function.update_of_ne hown.symm _ _⟩
    · exact ⟨rfl, rfl⟩

theorem vacant_set : (s.set o invalidFd).Vacant o := by
  intro fd hfd h
  simp only [Objects.set, Function.update_self, Option.some.injEq] at h
  exact hfd h.symm

theorem live_set_of_ne {p : O} (h : p ≠ o) (fd : Fd) : (s.set o fd).live p = s.live p :=
  Function.update_of_ne h _ _

theorem follows_release (hfd : fd ≠ invalidFd) :
    Follows fd s ((s.release o).1.filterMap (about fd)) (s.release o).2 := by
  refine Follows.give hfd .released (by decide) ?_ ?_ vacant_set fun p hp => live_set_of_ne hp _
  · intro ho hopen
    rw [Objects.release, (get_eq_iff hfd).mpr ho, if_pos hfd]
    exact ⟨by simp [about], by simp [Objects.set, hopen]⟩
  · intro ho
    have hown : s.get o ≠ fd := fun h => ho ((get_eq_iff hfd).mp h)
    refine ⟨?_, rfl⟩
    unfold Objects.release
    split
    · simp [about, hown]
    · rfl

/-- **A free descriptor** is taken by the object it is given to. -/
theorem follows_set {fd' : Fd} (hfd : fd ≠ invalidFd) (hvacant : s.Vacant o)
    (hfree : fd' ≠ invalidFd → s.Free fd') :
    Follows fd s (if fd' = fd then [.adopted] else []) (s.set o fd') := by
  by_cases hnew : fd' = fd
  · subst hnew
    intro c hc
    obtain ⟨hopen, hnone⟩ := hfree hfd
    have hidle := hc.idle_of_free (hfree hfd)
    have hlive : ∀ p, (s.set o fd').live p = some fd' ↔ p = o := by
      intro p
      by_cases hpo : p = o
      · subst hpo
        simp [Objects.set]
      · rw [live_set_of_ne hpo]
        exact iff_of_false (hnone p) hpo
    refine ⟨.held, ?_, ?_, ?_, ?_⟩
    · rw [if_pos rfl]
      exact Run.single (Custody.Step.adopted hidle)
    · show _ ↔ s.isOpen fd' = false
      rw [hopen]
      decide
    · simp [hlive]
    · intro p q hp hq
      rw [hlive] at hp hq
      rw [hp, hq]
  · apply Follows.frame
    · rfl
    · intro p
      by_cases hpo : p = o
      · subst hpo
        exact iff_of_false (by simp [Objects.set, hnew]) (hvacant fd hfd)
      · rw [live_set_of_ne hpo]
    · exact if_neg hnew

/-- **A move** does not show. -/
theorem follows_steal (hfd : fd ≠ invalidFd) (hvacant : s.Vacant o) (hne : o ≠ other) :
    Follows fd s [] (s.steal o other) := by
  have hother : (s.steal o other).live other = some invalidFd := by
    simp [Objects.steal, Objects.set]
  have ho : (s.steal o other).live o = some (s.get other) := by
    rw [Objects.steal, live_set_of_ne hne]
    simp [Objects.set]
  have helse : ∀ p, p ≠ o → p ≠ other → (s.steal o other).live p = s.live p := by
    intro p hpo hpother
    rw [Objects.steal, live_set_of_ne hpother, live_set_of_ne hpo]
  by_cases hmoved : s.live other = some fd
  · intro c hc
    have hget := (get_eq_iff hfd).mpr hmoved
    have hlive : ∀ p, (s.steal o other).live p = some fd ↔ p = o := by
      intro p
      by_cases hpo : p = o
      · rw [hpo, ho, hget]
        simp
      · refine iff_of_false ?_ hpo
        by_cases hpother : p = other
        · rw [hpother, hother]
          simpa using hfd.symm
        · rw [helse p hpo hpother]
          exact fun h => hpother (hc.unique p other h hmoved)
    refine ⟨c, .nil, hc.closed_iff, ?_, ?_⟩
    · rw [hc.held_iff]
      exact iff_of_true ⟨other, hmoved⟩ ⟨o, (hlive o).mpr rfl⟩
    · intro p q hp hq
      rw [hlive] at hp hq
      rw [hp, hq]
  · have hget : s.get other ≠ fd := fun h => hmoved ((get_eq_iff hfd).mp h)
    refine Follows.frame rfl ?_ rfl
    intro p
    by_cases hpo : p = o
    · rw [hpo, ho]
      exact iff_of_false (by simpa using hget) (hvacant fd hfd)
    · by_cases hpother : p = other
      · rw [hpother, hother]
        exact iff_of_false (by simpa using hfd.symm) hmoved
      · rw [helse p hpo hpother]

/-! ## Every operation -/

omit [DecidableEq O] in
theorem vacant_of_none (h : s.live o = none) : s.Vacant o := by
  intro fd _
  simp [h]

omit [DecidableEq O] in
theorem live_closeOwn : (s.closeOwn o).2.live = s.live := by
  unfold Objects.closeOwn
  split <;> rfl

/-- `reset` without an argument. -/
theorem follows_vacate (hfd : fd ≠ invalidFd) :
    Follows fd s ((s.closeOwn o).1.filterMap (about fd))
      ((s.closeOwn o).2.set o invalidFd) := by
  refine follows_closeOwn hfd rfl vacant_set ?_
  intro p hp
  rw [live_set_of_ne hp, live_closeOwn]

theorem follows_reset {fd' : Fd} (hfd : fd ≠ invalidFd) (hfree : fd' ≠ invalidFd → s.Free fd') :
    Follows fd s ((s.reset o fd').1.filterMap (about fd) ++ if fd' = fd then [.adopted] else [])
      (s.reset o fd').2 := by
  have hset : ((s.closeOwn o).2.set o invalidFd).set o fd' = (s.closeOwn o).2.set o fd' := by
    simp [Objects.set]
  have hstill : fd' ≠ invalidFd → ((s.closeOwn o).2.set o invalidFd).Free fd' := by
    intro hfd'
    obtain ⟨hopen, hnone⟩ := hfree hfd'
    constructor
    · show (s.closeOwn o).2.isOpen fd' = true
      have hown : s.get o ≠ fd' := fun h => hnone o ((get_eq_iff hfd').mp h)
      unfold Objects.closeOwn
      split
      · rw [← hopen]
        exact Function.update_of_ne hown.symm _ _
      · exact hopen
    · intro p
      by_cases hpo : p = o
      · rw [hpo]
        exact vacant_set fd' hfd'
      · rw [live_set_of_ne hpo, live_closeOwn]
        exact hnone p
  have hgiven := follows_set hfd vacant_set hstill
  rw [hset] at hgiven
  exact (follows_vacate hfd).trans hgiven

theorem follows_moveAssign (hfd : fd ≠ invalidFd) :
    Follows fd s ((s.moveAssign o other).1.filterMap (about fd)) (s.moveAssign o other).2 := by
  unfold Objects.moveAssign
  split
  · next hne =>
      have hsteal := (follows_vacate hfd).trans
        (follows_steal hfd (vacant_set (s := (s.closeOwn o).2)) hne)
      rwa [List.append_nil] at hsteal
  · exact Follows.frame rfl (fun _ => Iff.rfl) rfl

theorem follows_destroy (hfd : fd ≠ invalidFd) :
    Follows fd s ((s.destroy o).1.filterMap (about fd)) (s.destroy o).2 := by
  refine follows_closeOwn hfd rfl ?_ ?_
  · intro fd _
    simp [Objects.destroy]
  · intro p hp
    show Function.update (s.closeOwn o).2.live o none p = _
    rw [Function.update_of_ne hp, live_closeOwn]

omit [DecidableEq O] in
theorem follows_openElsewhere (hallowed : s.isOpen fd = false) :
    Follows fd s [.opened] { s with isOpen := Function.update s.isOpen fd true } := by
  intro c hc
  obtain rfl : c = .closed := hc.closed_iff.mpr hallowed
  have hnone : ¬ ∃ o, s.live o = some fd := fun h => by simpa using hc.held_iff.mpr h
  refine ⟨.idle, ?_, ?_, ?_, hc.unique⟩
  · simpa [about] using Run.single Custody.Step.opened
  · simp
  · simpa using hnone

omit [DecidableEq O] in
theorem follows_closeElsewhere (hallowed : s.Free fd) :
    Follows fd s [.closedElsewhere] { s with isOpen := Function.update s.isOpen fd false } := by
  intro c hc
  refine ⟨.closed, ?_, ?_, ?_, hc.unique⟩
  · simpa [about] using Run.single (Custody.Step.closedElsewhere (hc.idle_of_free hallowed))
  · simp
  · simpa using hallowed.2

omit [DecidableEq O] in
/-- What is given to an object, of the operations that give something. -/
theorem given_eq_iff {fd' : Fd} (hfd : fd ≠ invalidFd) :
    (if fd' ≠ invalidFd then some fd' else none) = some fd ↔ fd' = fd := by
  constructor
  · intro h
    obtain ⟨-, h⟩ := Option.ite_none_right_eq_some.mp h
    exact Option.some_inj.mp h
  · rintro rfl
    exact if_pos hfd

/-- **Every operation** keeps to the protocol, for every descriptor. -/
theorem follows_effect (hfd : fd ≠ invalidFd) (op : Op O) (hallowed : op.Allowed s) :
    Follows fd s (shows fd (op, (op.effect s).1)) (op.effect s).2 := by
  have hplain : op.given? = none →
      Follows fd s ((op.effect s).1.filterMap (about fd)) (op.effect s).2 →
      Follows fd s (shows fd (op, (op.effect s).1)) (op.effect s).2 := by
    intro hnone h
    rw [shows, hnone]
    exact (List.append_nil _).symm ▸ h
  cases op with
  | construct o fd' =>
      simp only [shows, Op.given?, given_eq_iff hfd]
      exact follows_set hfd (vacant_of_none hallowed.1) hallowed.2
  | moveConstruct o other =>
      refine hplain rfl (follows_steal hfd (vacant_of_none hallowed.1) ?_)
      rintro rfl
      exact hallowed.2 hallowed.1
  | moveAssign o other => exact hplain rfl (follows_moveAssign hfd)
  | reset o fd' =>
      simp only [shows, Op.given?, given_eq_iff hfd]
      exact follows_reset hfd hallowed.2
  | release o => exact hplain rfl (follows_release hfd)
  | destroy o => exact hplain rfl (follows_destroy hfd)
  | openElsewhere fd' =>
      refine hplain rfl ?_
      by_cases h : fd' = fd
      · subst h
        simpa [Op.effect, about] using follows_openElsewhere hallowed.2
      · exact Follows.frame (Function.update_of_ne (Ne.symm h) _ _) (fun _ => Iff.rfl)
          (by simp [Op.effect, about, h])
  | closeElsewhere fd' =>
      refine hplain rfl ?_
      by_cases h : fd' = fd
      · subst h
        simpa [Op.effect, about] using follows_closeElsewhere hallowed.2
      · exact Follows.frame (Function.update_of_ne (Ne.symm h) _ _) (fun _ => Iff.rfl)
          (by simp [Op.effect, about, h])

/-! ## Every program -/

/-- What happens to a descriptor in the course of a program. -/
def history (fd : Fd) (tr : List (Op O × List (Event O))) : List Custody.Event :=
  tr.flatMap (shows fd)

/-- **What a program does to a descriptor** is a run of the custody protocol. -/
theorem history_run {isOpen : Fd → Bool} {tr : List (Op O × List (Event O))}
    (h : Run Step (start O isOpen) tr s) (hfd : fd ≠ invalidFd) :
    ∃ c₀ c, c₀ ≠ .held ∧ Run Custody.Step c₀ (history fd tr) c ∧ Kept s fd c := by
  have hstart : Kept (start O isOpen) fd (if isOpen fd then .idle else .closed) := by
    refine ⟨?_, ?_, ?_⟩
    · show _ ↔ isOpen fd = false
      cases isOpen fd <;> simp
    · cases isOpen fd <;> simp [start]
    · intro o p ho
      cases ho
  have hstep : ∀ (s : Objects O) c (e : Op O × List (Event O)) s', Kept s fd c → Step s e s' →
      ∃ c', Run Custody.Step c (shows fd e) c' ∧ Kept s' fd c' := by
    intro s c e s' hc ⟨hallowed, heffect⟩
    have hfollows := follows_effect hfd e.1 hallowed c hc
    rwa [heffect] at hfollows
  obtain ⟨c, hrun, hc⟩ := h.refine (R := fun s c => Kept s fd c) hstart hstep
  refine ⟨_, c, ?_, hrun, hc⟩
  split <;> decide

omit [DecidableEq O] in
theorem mem_closeOwn (hfd : fd ≠ invalidFd) {p : O} (h : .closed p fd ∈ (s.closeOwn o).1) :
    s.live p = some fd := by
  unfold Objects.closeOwn at h
  split at h
  · obtain ⟨rfl, rfl⟩ : p = o ∧ fd = s.get o := by simpa [Objects.close] using h
    exact (get_eq_iff hfd).mp rfl
  · cases h

/-- **Only who holds a descriptor closes it.** -/
theorem live_of_closed (hfd : fd ≠ invalidFd) (op : Op O) (h : .closed o fd ∈ (op.effect s).1) :
    s.live o = some fd := by
  cases op with
  | construct p fd' => cases h
  | moveConstruct p other => cases h
  | moveAssign p other =>
      simp only [Op.effect, Objects.moveAssign] at h
      split at h
      · exact mem_closeOwn hfd h
      · cases h
  | reset p fd' => exact mem_closeOwn hfd h
  | release p =>
      simp only [Op.effect, Objects.release] at h
      split at h <;> simp at h
  | destroy p => exact mem_closeOwn hfd h
  | openElsewhere fd' => simp [Op.effect] at h
  | closeElsewhere fd' => simp [Op.effect] at h

/-- **Every descriptor is closed once.** A descriptor that was given to an object since it was last
opened, and is open, is held by one object or has been released. Only who holds it closes it. What
it was closed or released from is a custody that had begun right before, and when no object is left,
every custody has ended so. -/
theorem closes_once {isOpen : Fd → Bool} {tr : List (Op O × List (Event O))}
    (h : Run Step (start O isOpen) tr s) (hfd : fd ≠ invalidFd) :
    (∀ tr₁ tr₂, history fd tr = tr₁ ++ .adopted :: tr₂ → .opened ∉ tr₂ → s.isOpen fd = true →
      (∃! o, s.live o = some fd) ∨ .released ∈ tr₂) ∧
    (∀ op evs s' o, Step s (op, evs) s' → .closed o fd ∈ evs → s.live o = some fd) ∧
    (∀ tr₁ e tr₂, history fd tr = tr₁ ++ e :: tr₂ → e.Ends → ∃ tr₀, tr₁ = tr₀ ++ [.adopted]) ∧
    ((∀ o, s.live o = none) → ∀ tr₁ tr₂, history fd tr = tr₁ ++ .adopted :: tr₂ →
      ∃ e tr₃, tr₂ = e :: tr₃ ∧ e.Ends) := by
  obtain ⟨c₀, c, h₀, hrun, hc⟩ := history_run h hfd
  refine ⟨?_, ?_, ?_, ?_⟩
  · intro tr₁ tr₂ he hno hopen
    have hclosed : c ≠ .closed := by
      rw [Ne, hc.closed_iff, hopen]
      decide
    refine (Custody.held_or_released (he ▸ hrun) hclosed hno).imp_left ?_
    intro hheld
    obtain ⟨o, ho⟩ := hc.held_iff.mp hheld
    exact ⟨o, ho, fun p hp => hc.unique p o hp ho⟩
  · intro op evs s' o ⟨_, heffect⟩ hmem
    have heffect : op.effect s = (evs, s') := heffect
    exact live_of_closed hfd op (by rwa [heffect])
  · intro tr₁ e tr₂ he
    exact Custody.begun h₀ (he ▸ hrun)
  · intro hnone tr₁ tr₂ he
    rcases Custody.ended (he ▸ hrun) with ⟨-, hheld⟩ | hended
    · obtain ⟨o, ho⟩ := hc.held_iff.mp hheld
      rw [hnone o] at ho
      cases ho
    · exact hended

section Exec

variable [Fintype O]

instance (s : Objects O) (fd : Fd) : Decidable (s.Free fd) := inferInstanceAs (Decidable (_ ∧ _))

instance (s : Objects O) (op : Op O) : Decidable (op.Allowed s) := by
  cases op <;> unfold Op.Allowed <;> infer_instance

/-- An operation that is allowed, carried out. -/
def next (s : Objects O) (op : Op O) : Option ((Op O × List (Event O)) × Objects O) :=
  if op.Allowed s then some ((op, (op.effect s).1), (op.effect s).2) else none

theorem step_of_next (s : Objects O) (op : Op O) (e : Op O × List (Event O)) (s' : Objects O)
    (h : next s op = some (e, s')) : Step s e s' := by
  unfold next at h
  split at h
  · next hallowed =>
      cases h
      exact ⟨hallowed, rfl⟩
  · cases h

end Exec

/-- A descriptor goes from one of two objects to the other, which closes it when it is given another
one, and that has been let go by the first in between. -/
def handover : Option (List (Op Bool × List (Event Bool)) × Objects Bool) :=
  exec next (start Bool fun fd => fd = 3 ∨ fd = 4)
    [.construct true 3, .construct false (-1), .moveAssign false true, .reset true 4,
      .release true, .reset false 4, .destroy true, .destroy false]

theorem handover_isSome : handover.isSome = true := by decide +kernel

theorem closes_once_handover :
    history 3 (handover.get handover_isSome).1 = [.adopted, .closed] ∧
    history 4 (handover.get handover_isSome).1 = [.adopted, .released, .adopted, .closed] ∧
      (∃ tr₀, [Custody.Event.adopted, .released, .adopted] = tr₀ ++ [.adopted]) ∧
      ∃ e tr₃, [Custody.Event.released, .adopted, .closed] = e :: tr₃ ∧ e.Ends := by
  have hthree : history 3 (handover.get handover_isSome).1 = [.adopted, .closed] := by
    decide +kernel
  have hfour : history 4 (handover.get handover_isSome).1 =
      [.adopted, .released, .adopted, .closed] := by
    decide +kernel
  have hrun := Run.of_exec_isSome step_of_next handover_isSome
  obtain ⟨-, -, hbegun, hended⟩ := closes_once hrun (show (4 : Fd) ≠ invalidFd by decide)
  exact ⟨hthree, hfour, hbegun [.adopted, .released, .adopted] .closed [] hfour trivial,
    hended (by decide +kernel) [] [.released, .adopted, .closed] hfour⟩

end UniqueFd

end Shclog
