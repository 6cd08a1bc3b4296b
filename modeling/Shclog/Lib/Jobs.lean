import Mathlib.Data.List.Perm.Basic
import Mathlib.Data.List.Nodup

/-! # Jobs

A worker takes jobs up, one after another, and is done with them in any order. A job is known by the
number at which it was taken up. `Jobs` says that none is lost on the way and none is done twice;
where no job is taken up while another is at work, they are done in the order they came in. -/

namespace Shclog.Lib

open scoped List

variable {α β : Type*}

/-- Every job that was taken up is at work or done, and just once. -/
structure Jobs (taken : List α) (running : List (α × Nat)) (done : List ((α × Nat) × β)) : Prop where
  perm : running ++ done.map Prod.fst ~ taken.zipIdx

namespace Jobs

variable {taken : List α} {running : List (α × Nat)} {done : List ((α × Nat) × β)} {a : α}
  {x : α × Nat} {b : β}

theorem nil : Jobs ([] : List α) [] ([] : List ((α × Nat) × β)) := ⟨.refl []⟩

theorem nodup_zipIdx (l : List α) : l.zipIdx.Nodup := by
  apply List.Nodup.of_map Prod.snd
  rw [List.zipIdx_map_snd]
  exact List.nodup_range'

/-- A job is taken up. -/
theorem take (h : Jobs taken running done) (a : α) :
    Jobs (taken ++ [a]) (running ++ [(a, taken.length)]) done := by
  refine ⟨?_⟩
  rw [List.zipIdx_append, List.append_assoc]
  calc running ++ ([(a, taken.length)] ++ done.map Prod.fst)
    _ ~ running ++ (done.map Prod.fst ++ [(a, taken.length)]) :=
        List.Perm.append_left _ List.perm_append_comm
    _ ~ taken.zipIdx ++ [a].zipIdx (0 + taken.length) := by
        rw [← List.append_assoc]
        simpa using h.perm.append_right _

/-- One of the jobs is done. -/
theorem finish [DecidableEq α] (h : Jobs taken running done) (hx : x ∈ running) (b : β) :
    Jobs taken (running.erase x) (done ++ [(x, b)]) := by
  refine ⟨.trans ?_ h.perm⟩
  rw [List.map_append]
  calc running.erase x ++ (done.map Prod.fst ++ [x])
    _ ~ x :: (running.erase x ++ done.map Prod.fst) := by
        rw [← List.append_assoc]
        exact List.perm_append_singleton ..
    _ ~ running ++ done.map Prod.fst :=
        List.Perm.append_right _ (List.perm_cons_erase hx).symm

theorem length (h : Jobs taken running done) : running.length + done.length = taken.length := by
  simpa using h.perm.length_eq

/-- Its number says which job it is. -/
theorem getElem? (h : Jobs taken running done) (hx : x ∈ running ∨ x ∈ done.map Prod.fst) :
    taken[x.2]? = some x.1 :=
  List.mem_zipIdx_iff_getElem?.mp (h.perm.mem_iff.mp (List.mem_append.mpr hx))

/-- A job that was taken up is at work or done. -/
theorem mem (h : Jobs taken running done) {i : Nat} (hi : taken[i]? = some a) :
    (a, i) ∈ running ∨ ∃ b, ((a, i), b) ∈ done := by
  have htaken : (a, i) ∈ taken.zipIdx := List.mem_zipIdx_iff_getElem?.mpr hi
  have hmem := h.perm.mem_iff.mpr htaken
  refine (List.mem_append.mp hmem).imp id fun hd => ?_
  obtain ⟨⟨x, b⟩, hmem, rfl⟩ := List.mem_map.mp hd
  exact ⟨b, hmem⟩

theorem nodup (h : Jobs taken running done) : (running ++ done.map Prod.fst).Nodup :=
  h.perm.nodup_iff.mpr (nodup_zipIdx taken)

/-- **Nothing is done twice.** -/
theorem nodup_done (h : Jobs taken running done) : (done.map fun d => d.1.2).Nodup := by
  have hperm : running.map Prod.snd ++ (done.map fun d => d.1.2) ~ List.range' 0 taken.length := by
    have := h.perm.map Prod.snd
    rwa [List.map_append, List.map_map, List.zipIdx_map_snd] at this
  exact (List.nodup_append.mp (hperm.nodup_iff.mpr List.nodup_range')).2.1

/-- What is at work is not done. -/
theorem not_done (h : Jobs taken running done) (hx : x ∈ running) : x ∉ done.map Prod.fst :=
  fun hd => List.disjoint_of_nodup_append h.nodup hx hd

/-! ## One at a time -/

/-- The jobs that are done are the first ones. -/
def InOrder (taken : List α) (done : List ((α × Nat) × β)) : Prop :=
  done.map Prod.fst = taken.zipIdx.take done.length

theorem inOrder_nil (taken : List α) : InOrder taken ([] : List ((α × Nat) × β)) := rfl

theorem InOrder.take (h : InOrder taken done) (hle : done.length ≤ taken.length) (a : α) :
    InOrder (taken ++ [a]) done := by
  unfold InOrder at *
  rw [List.zipIdx_append, List.take_append_of_le_length (by simpa using hle), h]

/-- If the jobs before it are done, the job at work is the next one. -/
theorem eq_next (h : Jobs taken running done) (ho : InOrder taken done)
    (hone : taken.length ≤ done.length + 1) (hx : x ∈ running) :
    x.2 = done.length ∧ taken[done.length]? = some x.1 := by
  have hget := h.getElem? (.inl hx)
  have hlt : x.2 < taken.length := (List.getElem?_eq_some_iff.mp hget).1
  have hge : done.length ≤ x.2 := by
    apply Nat.le_of_not_lt
    intro hlow
    apply h.not_done hx
    rw [ho, List.mem_take_iff_getElem]
    refine ⟨x.2, by rw [List.length_zipIdx]; omega, ?_⟩
    rw [List.getElem_zipIdx, Nat.zero_add]
    exact Prod.ext (List.getElem?_eq_some_iff.mp hget).2 rfl
  have heq : x.2 = done.length := by omega
  exact ⟨heq, heq ▸ hget⟩

theorem InOrder.finish (h : Jobs taken running done) (ho : InOrder taken done)
    (hone : taken.length ≤ done.length + 1) (hx : x ∈ running) (b : β) :
    InOrder taken (done ++ [(x, b)]) := by
  obtain ⟨hnum, hjob⟩ := h.eq_next ho hone hx
  unfold InOrder at *
  rw [List.map_append, ho, List.length_append, List.length_singleton, List.take_add_one]
  congr 1
  rw [List.getElem?_zipIdx, hjob]
  show [x] = [(x.1, 0 + done.length)]
  rw [Nat.zero_add, ← hnum]

end Jobs

end Shclog.Lib
