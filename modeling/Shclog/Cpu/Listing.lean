import Shclog.Cpu.Cores

/-! # All cores

What `list_cpu_cores` returns, whatever files there are, as long as each of them ends with a newline.
The files are read one after the other for as long as there is one and nothing is wrong with it, and
the first file that there is not, or that something is wrong with, decides. -/

namespace Shclog.Cpu

open Lib

variable {env : Env} {c : Content} {cores : List CPUCore}

/-- What there is of the `i`th file. -/
def Env.file (env : Env) (i : Nat) : Option (Option Content) :=
  env.openRead (env.pathStub ++ numeral 10 i ++ pathStubEnd)

def Env.NewlineTerminated (env : Env) : Prop :=
  ∀ i c, env.file i = some (some c) → c.NewlineTerminated

/-- The file is read through, and says that these are siblings. -/
def Content.Gives (c : Content) (siblings : List Usize) : Prop :=
  ∃ is, siblingLists.Tokens c.bytes is [] ∧ (∀ i ∈ is, ¬ i.Endless) ∧
    siblings = is.flatMap Item.siblings

/-- Something is in the file that is no item, and nothing keeps the parser from it. -/
def Content.Malformed (c : Content) : Prop := ¬ c.Loose ∧ ¬ c.Endless

/-- The first files are there, and they make these cores. -/
def Env.Makes (env : Env) (cores : List CPUCore) : Prop :=
  ∀ i core, cores[i]? = some core → core.core_idx = BitVec.ofNat 64 i ∧
    ∃ c, env.file i = some (some c) ∧ c.Gives core.siblings

/-- What decides what is returned. -/
inductive Env.Decides (env : Env) : Except ListCpuCoresError (List CPUCore) → Prop
  | listed {cores : List CPUCore} (h : env.Makes cores) (hle : cores.length ≤ 10000)
      (hend : cores.length < 10000 → env.file cores.length = none) : Decides env (.ok cores)
  | unreadable {cores : List CPUCore} (h : env.Makes cores) (hlt : cores.length < 10000)
      (hfile : env.file cores.length = some none) : Decides env (.error .couldNotReadCPUFile)
  | malformed {cores : List CPUCore} {c : Content} (h : env.Makes cores)
      (hlt : cores.length < 10000) (hfile : env.file cores.length = some (some c))
      (hc : c.Malformed) : Decides env (.error .malformedFile)

/-- A file has a range up to the largest number in it, and nothing before it decides. -/
def Env.Hangs (env : Env) : Prop :=
  ∃ cores c, env.Makes cores ∧ cores.length < 10000 ∧
    env.file cores.length = some (some c) ∧ c.Endless

namespace Content

theorem Gives.ne_nil {siblings : List Usize} (hnl : c.NewlineTerminated) (h : c.Gives siblings) :
    siblings ≠ [] := by
  obtain ⟨is, htok, -, rfl⟩ := h
  obtain ⟨l, hl⟩ := hnl
  cases is with
  | nil =>
      have hnil : [] = c.bytes := Lexicon.Tokens.nil_iff.mp htok
      rw [hl] at hnil
      exact absurd hnil.symm (List.concat_ne_nil _ _)
  | cons i is =>
      rw [List.flatMap_cons]
      cases i <;> exact List.cons_ne_nil _ _

theorem Gives.reaches {siblings : List Usize} (hnl : c.NewlineTerminated)
    (h : c.Gives siblings) : Reaches (Parse.Step c) .start (.done (.ok siblings)) := by
  obtain ⟨is, htok, hend, rfl⟩ := h
  obtain ⟨l, hl⟩ := hnl
  have hreach := Parse.reaches_tokens htok hend
  rw [List.length_nil, Nat.sub_zero] at hreach
  exact hreach.trans (.single (Parse.step_finish hl))

/-- **A file is read through, or malformed, or never done with.** -/
theorem gives_or (hnl : c.NewlineTerminated) :
    (∃ siblings, c.Gives siblings) ∨ c.Malformed ∨ c.Endless := by
  by_cases hend : c.Endless
  · exact .inr (.inr hend)
  · rcases Parse.reaches_done hnl hend with ⟨is, htok, -⟩ | ⟨hloose, -⟩
    · exact .inl ⟨_, is, htok, fun i hi he => hend ⟨is, [], htok, i, hi, he⟩, rfl⟩
    · exact .inr (.inl ⟨hloose, hend⟩)

end Content

namespace ListCpuCores

theorem makes_nil : env.Makes [] := by
  intro i core h
  cases h

theorem makes_concat {siblings : List Usize} (h : env.Makes cores)
    (hfile : env.file cores.length = some (some c)) (hc : c.Gives siblings) :
    env.Makes (cores ++ [⟨BitVec.ofNat 64 cores.length, siblings⟩]) := by
  intro i core hi
  by_cases hlt : i < cores.length
  · exact h i core (List.getElem?_append_left hlt ▸ hi)
  · rw [List.getElem?_append_right (Nat.le_of_not_lt hlt)] at hi
    obtain ⟨hlast, hcore⟩ := List.getElem?_eq_some_iff.mp hi
    obtain rfl : i = cores.length := by
      rw [List.length_singleton] at hlast
      omega
    simp only [Nat.sub_self, List.getElem_singleton] at hcore
    rw [← hcore]
    exact ⟨rfl, c, hfile, hc⟩

/-- The function gets past the files that make cores. -/
theorem reaches_makes (hnl : env.NewlineTerminated) (h : env.Makes cores)
    (hle : cores.length ≤ 10000) : Reaches (Step env) (.files 0 []) (.files cores.length cores) := by
  induction cores using List.reverseRecOn with
  | nil => exact .refl _
  | append_singleton cores core ih =>
      rw [List.length_append, List.length_singleton] at hle ⊢
      have hbefore : env.Makes cores := by
        intro i core' hi
        exact h i core' (List.getElem?_append_left (List.getElem?_eq_some_iff.mp hi).1 ▸ hi)
      obtain ⟨hidx, c, hfile, hc⟩ := h cores.length core (by simp)
      have hreach := ih hbefore (by omega)
      have hparse : Reaches (Step env) (.parse cores.length cores c .start) _ :=
        reaches_pushed (hc.reaches (hnl _ _ hfile))
      rw [← hidx] at hparse
      exact (hreach.trans (.single (step_files (by omega) hfile))).trans hparse

theorem step_unreadable {i : Nat} {result : List CPUCore} (hi : i < 10000)
    (h : env.file i = some none) :
    Step env (.files i result) none (.done (.error .couldNotReadCPUFile)) := by
  refine ⟨?_, rfl⟩
  show some _ = _
  rw [if_pos hi, file, path_eq hi, pure_bind, show env.openRead _ = some none from h]

/-- What decides is returned. -/
theorem reaches_of_decides (hnl : env.NewlineTerminated)
    {r : Except ListCpuCoresError (List CPUCore)} (h : env.Decides r) :
    Reaches (Step env) (.files 0 []) (.done r) := by
  cases h with
  | listed h hle hend => exact (reaches_makes hnl h hle).trans (.single (step_files_end hend))
  | unreadable h hlt hfile =>
      exact (reaches_makes hnl h (Nat.le_of_lt hlt)).trans (.single (step_unreadable hlt hfile))
  | @malformed cores c h hlt hfile hc =>
      have hrejects : Rejects env cores.length cores c := (rejects_iff (hnl _ _ hfile)).mpr hc
      obtain ⟨tr, hrun, -⟩ := hrejects
      exact ((reaches_makes hnl h (Nat.le_of_lt hlt)).trans (.single (step_files hlt hfile))).trans
        ⟨tr, hrun⟩

/-- The parser keeps the function going. -/
theorem not_terminates_of_hangs (hnl : env.NewlineTerminated) (h : env.Hangs) :
    ¬ Terminates (Step env) (.files 0 []) := by
  obtain ⟨cores, c, hmakes, hlt, hfile, hend⟩ := h
  obtain ⟨p, ⟨tr, hrun⟩, hp⟩ := Parse.reaches_countsForever hend
  have hreach := ((reaches_makes hnl hmakes (Nat.le_of_lt hlt)).trans
    (.single (step_files hlt hfile))).trans ⟨_, run_parse hrun⟩
  refine Terminates.not_of_progress (I := fun s => ∃ p, s = .parse cores.length cores c p ∧
    Parse.CountsForever p) ?_ hreach ⟨p, rfl, hp⟩
  rintro _ ⟨p, rfl, hp⟩
  obtain ⟨⟨⟩, p', hs, hp'⟩ := hp.progress
  exact ⟨none, _, step_parse hs, p', rfl, hp'⟩

/-- Going from file to file, something decides. -/
theorem decides_or (hnl : env.NewlineTerminated) (k : Nat) (hk : k ≤ 10000) :
    (∃ cores, env.Makes cores ∧ cores.length = k) ∨ (∃ r, env.Decides r) ∨ env.Hangs := by
  induction k with
  | zero => exact .inl ⟨[], makes_nil, rfl⟩
  | succ k ih =>
      rcases ih (by omega) with ⟨cores, hmakes, rfl⟩ | hdone
      · cases hfile : env.file cores.length with
        | none => exact .inr (.inl ⟨_, .listed hmakes (by omega) fun _ => hfile⟩)
        | some content =>
            cases content with
            | none => exact .inr (.inl ⟨_, .unreadable hmakes (by omega) hfile⟩)
            | some c =>
                rcases Content.gives_or (hnl _ _ hfile) with ⟨siblings, hc⟩ | hc | hc
                · exact .inl ⟨_, makes_concat hmakes hfile hc, by simp⟩
                · exact .inr (.inl ⟨_, .malformed hmakes (by omega) hfile hc⟩)
                · exact .inr (.inr ⟨cores, c, hmakes, by omega, hfile, hc⟩)
      · exact .inr hdone

theorem decides_or_hangs (hnl : env.NewlineTerminated) : (∃ r, env.Decides r) ∨ env.Hangs := by
  rcases decides_or hnl 10000 (Nat.le_refl _) with ⟨cores, hmakes, hlen⟩ | hdone
  · exact .inl ⟨_, .listed hmakes (Nat.le_of_eq hlen) fun hlt => by omega⟩
  · exact hdone

theorem done_unique {s : ListCpuCores} {r r' : Except ListCpuCoresError (List CPUCore)}
    (h : Reaches (Step env) s (.done r)) (h' : Reaches (Step env) s (.done r')) : r = r' := by
  obtain ⟨tr, h⟩ := h
  obtain ⟨tr', h'⟩ := h'
  obtain ⟨rest, -, hrest⟩ := h.to_halted deterministic h' (halted_done r')
  obtain ⟨-, hdone⟩ := hrest.nil_of_halted (halted_done r)
  cases hdone
  rfl

end ListCpuCores

/-- What is known of the function, with these files. -/
structure Env.Decided (env : Env) : Prop where
  /-- it returns what is decided, and nothing else; -/
  returns : ∀ r, Reaches (ListCpuCores.Step env) (.files 0 []) (.done r) ↔ env.Decides r
  /-- it returns unless a range is in its way that is counted through for ever; -/
  terminates : Terminates (ListCpuCores.Step env) (.files 0 []) ↔ ¬ env.Hangs
  /-- and every core that is returned has a first sibling. -/
  siblings : ∀ cores, Reaches (ListCpuCores.Step env) (.files 0 []) (.done (.ok cores)) →
    ∀ core ∈ cores, core.siblings ≠ []

namespace ListCpuCores

/-- **What `list_cpu_cores` does is decided by the first file that is missing or that something is
wrong with.** -/
theorem first_file_decides (hnl : env.NewlineTerminated) : env.Decided := by
  have hiff : ∀ r, Reaches (Step env) (.files 0 []) (.done r) ↔ env.Decides r := by
    intro r
    refine ⟨?_, reaches_of_decides hnl⟩
    intro h
    rcases decides_or_hangs hnl with ⟨r', hr'⟩ | hhangs
    · rwa [done_unique h (reaches_of_decides hnl hr')]
    · exact absurd (.of_halted deterministic h (halted_done r)) (not_terminates_of_hangs hnl hhangs)
  refine ⟨hiff, ⟨fun hterm hhangs => not_terminates_of_hangs hnl hhangs hterm, ?_⟩, ?_⟩
  · intro hhangs
    obtain ⟨r, hr⟩ := (decides_or_hangs hnl).resolve_right hhangs
    exact .of_halted deterministic (reaches_of_decides hnl hr) (halted_done r)
  · intro cores h core hcore
    cases (hiff _).mp h with
    | listed hmakes hle hend =>
        obtain ⟨i, hi⟩ := List.getElem?_of_mem hcore
        obtain ⟨-, c, hfile, hc⟩ := hmakes i core hi
        exact hc.ne_nil (hnl _ _ hfile)

theorem newlineTerminated_twoCores : twoCores.NewlineTerminated := by
  intro i c h
  obtain ⟨-, hc⟩ := Option.ite_none_right_eq_some.mp h
  cases hc
  exact exists_render _

theorem first_file_decides_twoCores : twoCores.Decided :=
  first_file_decides newlineTerminated_twoCores

end ListCpuCores

end Shclog.Cpu
