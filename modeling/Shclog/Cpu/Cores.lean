import Shclog.Cpu.Outcome

/-! # Core by core

What becomes of a file becomes of the function: a file that is read through makes a core, and one
that is malformed is the end of it. -/

namespace Shclog.Cpu

open Lib

variable {env : Env} {i : Nat} {result : List CPUCore} {c : Content}

namespace ListCpuCores

theorem deterministic : Deterministic (Step env) := by
  intro s e₁ s₁ e₂ s₂ ⟨h₁, he₁⟩ ⟨h₂, he₂⟩
  exact ⟨he₁.trans he₂.symm, Checked.pure_inj.mp (Option.some.inj (h₁.symm.trans h₂))⟩

theorem halted_done (r : Except ListCpuCoresError (List CPUCore)) :
    Halted (Step env) (.done r) := by
  intro _ _ h
  cases h.1

/-- A step of the parser is one of the function, and nothing is pushed. -/
theorem step_parse {p p' : Parse} (h : Parse.Step c p () p') :
    Step env (.parse i result c p) none (.parse i result c p') := by
  have hstep : (p.next c).map (fun x => do
      let p ← x
      pure (ListCpuCores.parse i result c p)) = some (pure (.parse i result c p')) := by
    rw [show p.next c = some (pure p') from h, Option.map_some, pure_bind]
  cases p with
  | tokens it s => exact ⟨hstep, rfl⟩
  | counting it x y s => exact ⟨hstep, rfl⟩
  | done r => cases h

theorem run_parse {p p' : Parse} {tr : List Unit} (h : Run (Parse.Step c) p tr p') :
    Run (Step env) (.parse i result c p) (tr.map fun _ => none) (.parse i result c p') := by
  induction h with
  | nil => exact .nil
  | snoc _ hs ih =>
      rw [List.map_append]
      exact ih.snoc (step_parse hs)

theorem step_pushed (siblings : List Usize) :
    Step env (.parse i result c (.done (.ok siblings))) (some ⟨BitVec.ofNat 64 i, siblings⟩)
      (.files (i + 1) (result ++ [⟨BitVec.ofNat 64 i, siblings⟩])) := ⟨rfl, rfl⟩

theorem run_accepted {siblings : List Usize} {tr : List Unit}
    (h : Run (Parse.Step c) .start tr (.done (.ok siblings))) :
    Run (Step env) (.parse i result c .start)
      (tr.map (fun _ => none) ++ [some ⟨BitVec.ofNat 64 i, siblings⟩])
      (.files (i + 1) (result ++ [⟨BitVec.ofNat 64 i, siblings⟩])) :=
  (run_parse h).snoc (step_pushed siblings)

theorem step_error (e : ListCpuCoresError) :
    Step env (.parse i result c (.done (.error e))) none (.done (.error e)) := ⟨rfl, rfl⟩

/-- `MalformedFile` is returned, and nothing has been pushed since `c` was read. -/
def Rejects (env : Env) (i : Nat) (result : List CPUCore) (c : Content) : Prop :=
  ∃ tr, Run (Step env) (.parse i result c .start) tr (.done (.error .malformedFile)) ∧
    ∀ e ∈ tr, e = none

theorem rejects_of_reaches (h : Reaches (Parse.Step c) .start (.done (.error .malformedFile))) :
    Rejects env i result c := by
  obtain ⟨tr, h⟩ := h
  refine ⟨_, (run_parse h).snoc (step_error _), ?_⟩
  intro e he
  rcases List.mem_append.mp he with he | he
  · obtain ⟨_, -, rfl⟩ := List.mem_map.mp he
    rfl
  · exact List.mem_singleton.mp he

theorem not_rejects_of_reaches {siblings : List Usize}
    (h : Reaches (Parse.Step c) .start (.done (.ok siblings))) : ¬ Rejects env i result c := by
  obtain ⟨tr₁, h₁⟩ := h
  intro ⟨tr, hrun, hnone⟩
  obtain ⟨rest, rfl, -⟩ := (run_accepted h₁).to_halted deterministic hrun (halted_done _)
  have := hnone (some ⟨BitVec.ofNat 64 i, siblings⟩) (by simp)
  cases this

theorem not_rejects_of_endless (h : c.Endless) : ¬ Rejects env i result c := by
  intro ⟨tr, hrun, _⟩
  obtain ⟨n, hn⟩ := Terminates.of_halted deterministic ⟨tr, hrun⟩ (halted_done _)
  refine Parse.not_terminates h ⟨n, ?_⟩
  intro tr' p hp
  have := hn _ _ (run_parse hp)
  rwa [List.length_map] at this

/-- A well-formed file can be read through. -/
theorem loose_of_wellFormed (h : WellFormed c.bytes) : c.Loose := by
  obtain ⟨is, hne, hc, -⟩ := h
  exact ⟨is, hc ▸ tokens_render hne⟩

/-- **What the parser rejects**: of the files that end with a newline, those that cannot be read
through, if no range up to the largest number is come to before that shows. -/
theorem rejects_iff (hnl : c.NewlineTerminated) :
    Rejects env i result c ↔ ¬ c.Loose ∧ ¬ c.Endless := by
  constructor
  · intro h
    have hend : ¬ c.Endless := fun hend => not_rejects_of_endless hend h
    rcases Parse.reaches_done hnl hend with ⟨is, -, hok⟩ | ⟨hloose, -⟩
    · exact absurd h (not_rejects_of_reaches hok)
    · exact ⟨hloose, hend⟩
  · intro ⟨hloose, hend⟩
    rcases Parse.reaches_done hnl hend with ⟨is, htok, -⟩ | ⟨-, herr⟩
    · exact absurd ⟨is, htok⟩ hloose
    · exact rejects_of_reaches herr

theorem rejects_malformed_iff (env : Env) (i : Nat) (result : List CPUCore) (c : Content)
    (hnl : c.NewlineTerminated) :
    (¬ WellFormed c.bytes → Rejects env i result c) ↔
      WellFormed c.bytes ∨ ¬ c.Loose ∧ ¬ c.Endless := by
  rw [rejects_iff hnl, or_iff_not_imp_left]

/-- The paths of the system, with nothing there. -/
def noFiles : Env where
  pathStub := bytesOf "/sys/devices/system/cpu/cpu"
  left := fun _ => 0
  openRead := fun _ => none

/-- `0-2,x`, and a newline. -/
def misspelt : Content := ⟨[0x30, 0x2d, 0x32, 0x2c, 0x78, 0x0a], by decide⟩

def zeroToTwo : Item := .range ⟨[0x30], by decide, by decide⟩ ⟨[0x32], by decide, by decide⟩

theorem rejects_misspelt : misspelt.bytes = bytesOf "0-2,x\n" ∧ ¬ WellFormed misspelt.bytes ∧
    Rejects noFiles 0 [] misspelt := by
  -- the range is read, and there is no item after the comma
  have htok : siblingLists.Tokens misspelt.bytes [zeroToTwo] [0x78, newline] :=
    .cons (i := zeroToTwo) (d := comma) rfl .nil
  have hfin := Lexicon.Tokens.final_of_stuck (stuck_of_not_digit (t := [newline])
    (show isDecimalDigit 0x78 = false from rfl))
  have hloose : ¬ misspelt.Loose := Content.not_loose htok hfin (List.cons_ne_nil _ _)
  have hend : ¬ misspelt.Endless := Content.not_endless htok hfin (by decide +kernel)
  have hbad : ¬ WellFormed misspelt.bytes := fun h => hloose (loose_of_wellFormed h)
  have hnl : misspelt.NewlineTerminated := ⟨[0x30, 0x2d, 0x32, 0x2c, 0x78], rfl⟩
  exact ⟨by decide +kernel, hbad,
    (rejects_malformed_iff noFiles 0 [] misspelt hnl).mpr (.inr ⟨hloose, hend⟩) hbad⟩

/-- `5-3`, and a newline. -/
def reversed : Content := ⟨[0x35, 0x2d, 0x33, 0x0a], by decide⟩

def reversedItem : Item :=
  .range ⟨[0x35], by decide, by decide⟩ ⟨[0x33], by decide, by decide⟩

/-- A range that runs backwards is taken for its first number. -/
theorem not_rejects_reversed : reversed.NewlineTerminated ∧ ¬ WellFormed reversed.bytes ∧
    ∀ env i result, ¬ Rejects env i result reversed := by
  refine ⟨⟨[0x35, 0x2d, 0x33], rfl⟩, ?_, ?_⟩
  · intro ⟨is, hne, hrender, his⟩
    have htok : siblingLists.Tokens reversed.bytes [reversedItem] [] :=
      .cons (i := reversedItem) (d := newline) rfl .nil
    have hread := tokens_render hne
    rw [← hrender] at hread
    obtain ⟨rfl, -⟩ := hread.final_unique Lexicon.Tokens.final_nil htok Lexicon.Tokens.final_nil
    have hord : 5 ≤ 3 := (his reversedItem (List.mem_singleton.mpr rfl)).1
    exact absurd hord (by decide)
  · intro env i result
    have h₁ : Parse.Step reversed .start () (.counting 3 6 3 [5]) := rfl
    have h₂ : Parse.Step reversed (.counting 3 6 3 [5]) () (.tokens 4 [5]) := rfl
    have h₃ : Parse.Step reversed (.tokens 4 [5]) () (.done (.ok [5])) := rfl
    exact not_rejects_of_reaches ⟨_, ((Run.single h₁).snoc h₂).snoc h₃⟩

/-! ## Well-formed files -/

/-- The core with the given index that a list of siblings is about. -/
def coreOf (i : Nat) (is : List Item) : CPUCore :=
  ⟨BitVec.ofNat 64 i, (is.flatMap Item.denotes).map (BitVec.ofNat 64)⟩

/-- Ranges do not run backwards, and no number is the largest of its type. -/
def Regular (is : List Item) : Prop :=
  ∀ i ∈ is, i.Ordered ∧ ∀ n ∈ i.numbers, n.value < 2 ^ 64 - 1

instance (is : List Item) : Decidable (Regular is) := inferInstanceAs (Decidable (∀ i ∈ is, _))

theorem flatMap_siblings {is : List Item} (h : Regular is) :
    is.flatMap Item.siblings = (is.flatMap Item.denotes).map (BitVec.ofNat 64) := by
  induction is with
  | nil => rfl
  | cons i is ih =>
      obtain ⟨hi, his⟩ := List.forall_mem_cons.mp h
      rw [List.flatMap_cons, List.flatMap_cons, List.map_append, ih his,
        Item.siblings_eq hi.1 hi.2]

theorem reaches_siblings {is : List Item} (hne : is ≠ []) (hc : c.bytes = render is)
    (his : Regular is) :
    Reaches (Parse.Step c) .start
      (.done (.ok ((is.flatMap Item.denotes).map (BitVec.ofNat 64)))) := by
  have hend : ∀ i ∈ is, ¬ i.Endless := by
    intro i hi he
    cases i with
    | single n => exact he
    | range a b =>
        have := (his _ hi).2 b (by simp [Item.numbers])
        change b.value = 2 ^ 64 - 1 at he
        omega
  have hreach := Parse.reaches_tokens (hc ▸ tokens_render hne) hend
  rw [List.length_nil, Nat.sub_zero, flatMap_siblings his] at hreach
  obtain ⟨l, hl⟩ := exists_render is
  exact hreach.trans (.single (Parse.step_finish (hc.trans hl)))

theorem reaches_pushed {siblings : List Usize}
    (h : Reaches (Parse.Step c) .start (.done (.ok siblings))) :
    Reaches (Step env) (.parse i result c .start)
      (.files (i + 1) (result ++ [⟨BitVec.ofNat 64 i, siblings⟩])) := by
  obtain ⟨tr, htr⟩ := h
  exact ⟨_, run_accepted htr⟩

/-- **A well-formed list of siblings** makes a core that has them. -/
theorem reaches_core (env : Env) (i : Nat) (result : List CPUCore) {is : List Item} (hne : is ≠ [])
    (hc : c.bytes = render is) (his : Regular is) :
    Reaches (Step env) (.parse i result c .start) (.files (i + 1) (result ++ [coreOf i is])) :=
  reaches_pushed (reaches_siblings hne hc his)

/-- `1,3-4` -/
def threeOfFour : List Item :=
  [.single ⟨[0x31], by decide, by decide⟩,
    .range ⟨[0x33], by decide, by decide⟩ ⟨[0x34], by decide, by decide⟩]

theorem reaches_core_threeOfFour : render threeOfFour = bytesOf "1,3-4\n" ∧
    Reaches (Step noFiles) (.parse 0 [] ⟨render threeOfFour, by decide⟩ .start)
      (.files 1 [⟨0, [1, 3, 4]⟩]) := by
  have hreg : Regular threeOfFour := by decide +kernel
  exact ⟨by decide +kernel, reaches_core noFiles 0 [] (List.cons_ne_nil _ _) rfl hreg⟩

/-! ## All files -/

/-- The path of a file has its number in it. -/
theorem path_eq (hi : i < 10000) :
    env.path i = pure (env.pathStub ++ numeral 10 i ++ pathStubEnd) := by
  have hnum : intNumeral 10 i = numeral 10 i := if_neg (by omega)
  have hlen : (numeral 10 i).length ≤ 4 := length_numeral_le (by decide) (by decide) hi
  have hbuf := Slice.toList_storeList ⟨fun _ => 0, 4, by decide⟩ (numeral 10 i)
  unfold Env.path Fmt.toChars
  simp only [hnum, if_pos hlen, Checked.assert_true, pure_bind]
  exact congrArg (fun s => pure (env.pathStub ++ s ++ pathStubEnd)) hbuf

theorem step_files (hi : i < 10000)
    (h : env.openRead (env.pathStub ++ numeral 10 i ++ pathStubEnd) = some (some c)) :
    Step env (.files i result) none (.parse i result c .start) := by
  refine ⟨?_, rfl⟩
  show some _ = _
  rw [if_pos hi, file, path_eq hi, pure_bind, h]

theorem step_files_end
    (h : i < 10000 → env.openRead (env.pathStub ++ numeral 10 i ++ pathStubEnd) = none) :
    Step env (.files i result) none (.done (.ok result)) := by
  refine ⟨?_, rfl⟩
  show some _ = _
  by_cases hi : i < 10000
  · rw [if_pos hi, file, path_eq hi, pure_bind, h hi]
  · rw [if_neg hi]

/-- The file of each of the first cores has the list of its siblings. -/
def Lists (env : Env) (lists : List (List Item)) : Prop :=
  ∀ i is, lists[i]? = some is → is ≠ [] ∧ Regular is ∧ i < 10000 ∧ ∃ c : Content,
    env.openRead (env.pathStub ++ numeral 10 i ++ pathStubEnd) = some (some c) ∧
      c.bytes = render is

theorem reaches_files {lists : List (List Item)} (h : Lists env lists) :
    Reaches (Step env) (.files 0 [])
      (.files lists.length (lists.zipIdx.map fun p => coreOf p.2 p.1)) := by
  induction lists using List.reverseRecOn with
  | nil => exact .refl _
  | append_singleton lists is ih =>
      have hbefore : Lists env lists := by
        intro i js hi
        exact h i js (List.getElem?_append_left (List.getElem?_eq_some_iff.mp hi).1 ▸ hi)
      obtain ⟨hne, hreg, hlt, c, hopen, hc⟩ := h lists.length is (by simp)
      have hcore : Reaches (Step env)
          (.parse lists.length (lists.zipIdx.map fun p => coreOf p.2 p.1) c .start)
          (.files (lists.length + 1)
            ((lists.zipIdx.map fun p => coreOf p.2 p.1) ++ [coreOf lists.length is])) :=
        reaches_pushed (reaches_siblings hne hc hreg)
      rw [List.zipIdx_append, List.map_append, List.length_append]
      simpa using ((ih hbefore).trans (.single (step_files hlt hopen))).trans hcore

/-- **`list_cpu_cores`** lists the cores up to the first that there is no file for. -/
theorem reaches_cores {lists : List (List Item)} (h : Lists env lists)
    (hend : lists.length < 10000 →
      env.openRead (env.pathStub ++ numeral 10 lists.length ++ pathStubEnd) = none) :
    Reaches (Step env) (.files 0 [])
      (.done (.ok (lists.zipIdx.map fun p => coreOf p.2 p.1))) :=
  (reaches_files h).trans (.single (step_files_end hend))

/-- `0-1` -/
def zeroAndOne : List Item :=
  [.range ⟨[0x30], by decide, by decide⟩ ⟨[0x31], by decide, by decide⟩]

/-- Two cores, whose siblings are the same. -/
def twoCores : Env where
  pathStub := bytesOf "cpu"
  left := fun _ => 0
  openRead := fun path =>
    if path = bytesOf "cpu0/topology/thread_siblings_list" ∨
        path = bytesOf "cpu1/topology/thread_siblings_list" then
      some (some ⟨render zeroAndOne, by decide⟩)
    else none

theorem lists_twoCores : Lists twoCores [zeroAndOne, zeroAndOne] := by
  have hreg : Regular zeroAndOne := by decide +kernel
  intro i is hi
  match i, hi with
  | 0, rfl =>
      exact ⟨List.cons_ne_nil _ _, hreg, by decide, _, if_pos (by decide +kernel), rfl⟩
  | 1, rfl =>
      exact ⟨List.cons_ne_nil _ _, hreg, by decide, _, if_pos (by decide +kernel), rfl⟩

theorem openRead_twoCores :
    twoCores.openRead (twoCores.pathStub ++ numeral 10 2 ++ pathStubEnd) = none :=
  if_neg (by decide +kernel)

theorem reaches_cores_twoCores : Reaches (Step twoCores) (.files 0 [])
    (.done (.ok [⟨0, [0, 1]⟩, ⟨1, [0, 1]⟩])) :=
  reaches_cores lists_twoCores fun _ => openRead_twoCores

end ListCpuCores

end Shclog.Cpu
