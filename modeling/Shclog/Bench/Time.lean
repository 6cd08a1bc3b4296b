import Mathlib.Algebra.Order.BigOperators.Group.List
import Shclog.Bench.Sample.Statistics

/-! # `Time`

The stopwatch of `time.hpp`, and the samples it is read into. One timer is started and sampled over
and over; each time the interval goes into one of several samples. Whatever the client does, the
intervals do not overlap, so that all of them together are no longer than the time that passes. -/

namespace Shclog

open Lib

/-- The durations at hand, all of them counted in `i64`: how many `D` a tick of the clock `C` is,
and how many `TarD` one `D` is, as the ratio by whose numbers `duration_cast` multiplies and
divides. -/
structure Durations where
  perTick : Nat
  num : Nat
  den : Nat
  perTick_pos : 0 < perTick
  den_pos : 0 < den

structure Time where
  t0 : IntType.i64.Val

namespace Time

variable {T : IntType}

/-- 0 is a sentinel for unitialized here. -/
def SENTINEL : IntType.i64.Val := 0

def new : Time := ⟨SENTINEL⟩

/-- `C::now()`, as a time point of `D`. -/
def read (u : Durations) (now : IntType.i64.Val) : Eval IntType.i64.Val :=
  Eval.arith .i64 (now.val * u.perTick)

def start (u : Durations) (now : IntType.i64.Val) : Eval Time := do
  let t0 ← read u now
  pure ⟨t0⟩

def started (t : Time) : Bool := t.t0 ≠ SENTINEL

/-- `CastTransformFn`. -/
def castTransform (u : Durations) (T : IntType) (n : IntType.i64.Val) : Eval T.Val := do
  let n ← Eval.arith .i64 (n.val * u.num)
  Eval.intCast T (n.val.tdiv u.den)

def sample (u : Durations) (transform : IntType.i64.Val → Eval T.Val) (t : Time)
    (now : IntType.i64.Val) (s : Sample T) : Eval (Sample.PushResult × Time × Sample T) := do
  let now ← read u now
  let n ← Eval.arith .i64 (now.val - t.t0.val)
  let v ← transform n
  let (r, s) ← s.push v
  pure (r, ⟨SENTINEL⟩, s)

end Time

/-! ## A timer and its samples -/

/-- A timer, and what it is sampled into. -/
structure Watch (ι : Type) (T : IntType) where
  time : Time
  samples : ι → Sample T

namespace Watch

variable {ι : Type} {T : IntType}

/-- A call, and what the clock reads in it. -/
inductive Call (ι : Type) where
  | start (now : IntType.i64.Val)
  | started
  | sample (i : ι) (now : IntType.i64.Val)

inductive Result where
  | start
  | started (b : Bool)
  | sample (r : Sample.PushResult)
  deriving DecidableEq

def new (bufs : ι → Slice T.Val) : Watch ι T := ⟨.new, fun i => .new (bufs i)⟩

def call [DecidableEq ι] (u : Durations) (w : Watch ι T) : Call ι → Eval (Result × Watch ι T)
  | .start now => do
    let time ← Time.start u now
    pure (.start, { w with time })
  | .started => pure (.started w.time.started, w)
  | .sample i now => do
    let (r, time, s) ← w.time.sample u (Time.castTransform u T) now (w.samples i)
    pure (.sample r, ⟨time, Function.update w.samples i s⟩)

/-- One call after the other. -/
def calls [DecidableEq ι] (u : Durations) (w : Watch ι T) :
    List (Call ι) → Eval (List Result × Watch ι T)
  | [] => pure ([], w)
  | c :: cs => do
    let (r, w) ← w.call u c
    let (rs, w) ← w.calls u cs
    pure (r :: rs, w)

/-! ## Intervals -/

/-- The clock does not go back before `clock` nor past `last`, and nothing is sampled that has not
been started. -/
def Honest (last : Int) : Int → Bool → List (Call ι) → Prop
  | _, _, [] => True
  | clock, _, .start now :: cs => clock ≤ now.val ∧ now.val ≤ last ∧ Honest last now.val true cs
  | clock, on, .started :: cs => Honest last clock on cs
  | clock, on, .sample _ now :: cs =>
    on = true ∧ clock ≤ now.val ∧ now.val ≤ last ∧ Honest last now.val false cs

/-- From `begun` to `ended`, for the sample `into`. -/
structure Lap (ι : Type) where
  into : ι
  begun : Int
  ended : Int

/-- What is timed, if something is being timed since `begun`. -/
def laps : Int → List (Call ι) → List (Lap ι)
  | _, [] => []
  | _, .start now :: cs => laps now.val cs
  | begun, .started :: cs => laps begun cs
  | begun, .sample i now :: cs => ⟨i, begun, now.val⟩ :: laps 0 cs

/-- How many `TarD` an interval is. -/
def Lap.length (u : Durations) (l : Lap ι) : Int :=
  (l.ended - l.begun) * u.perTick * u.num / u.den

variable {u : Durations} {first last clock since begun : Int} {on : Bool} {cs : List (Call ι)}

/-- The intervals are within the time that passes, -/
theorem mem_laps (h : Honest last clock on cs) (hon : on = true → first ≤ begun ∧ begun ≤ clock)
    (hclock : first ≤ clock) :
    ∀ l ∈ laps begun cs, first ≤ l.begun ∧ l.begun ≤ l.ended ∧ l.ended ≤ last := by
  induction cs generalizing clock on begun with
  | nil =>
      intro l hl
      cases hl
  | cons c cs ih =>
      cases c with
      | start now =>
          obtain ⟨hle, -, hrest⟩ := h
          exact ih hrest (fun _ => ⟨hclock.trans hle, le_rfl⟩) (hclock.trans hle)
      | started => exact ih h hon hclock
      | sample i now =>
          obtain ⟨rfl, hle, hlast, hrest⟩ := h
          obtain ⟨hfirst, hbegun⟩ := hon rfl
          intro l hl
          rcases List.mem_cons.mp hl with rfl | hl
          · exact ⟨hfirst, hbegun.trans hle, hlast⟩
          · exact ih hrest (fun h => nomatch h) (hclock.trans hle) l hl

/-- and do not overlap, so that together they are no longer. -/
theorem sum_laps_le (h : Honest last clock on cs) (hclock : clock ≤ last) (hsince : since ≤ clock)
    (hon : on = true → since ≤ begun) :
    ((laps begun cs).map fun l => l.ended - l.begun).sum ≤ last - since := by
  induction cs generalizing clock on begun since with
  | nil => exact Int.sub_nonneg.mpr (hsince.trans hclock)
  | cons c cs ih =>
      cases c with
      | start now =>
          obtain ⟨hle, hlast, hrest⟩ := h
          have hsum := ih hrest hlast le_rfl fun _ => le_rfl
          exact hsum.trans (by omega)
      | started => exact ih h hclock hsince hon
      | sample i now =>
          obtain ⟨rfl, hle, hlast, hrest⟩ := h
          have hsum : ((laps 0 cs).map fun l => l.ended - l.begun).sum ≤ last - now.val :=
            ih hrest hlast le_rfl fun h => nomatch h
          have hbegun := hon rfl
          rw [laps, List.map_cons, List.sum_cons]
          dsimp only
          omega

/-- All intervals together are no longer than the time in which they were timed. -/
theorem sum_length_le (hle : first ≤ last) (hcs : Honest last first false cs) :
    ((laps 0 cs).map (Lap.length u)).sum ≤ (last - first) * u.perTick * u.num / u.den := by
  have hden : (0 : Int) < u.den := Int.natCast_pos.mpr u.den_pos
  have hlen : (laps 0 cs).map (Lap.length u) =
      ((laps 0 cs).map fun l => l.ended - l.begun).map
        fun x => x * (u.perTick * u.num : Int) / u.den := by
    rw [List.map_map]
    apply List.map_congr_left
    intro l _
    rw [Lap.length, Int.mul_assoc]
    rfl
  have hsum : ((laps 0 cs).map fun l => l.ended - l.begun).sum ≤ last - first :=
    sum_laps_le hcs hle le_rfl fun h => nomatch h
  rw [hlen, Int.mul_assoc (last - first)]
  apply (sum_map_mul_ediv_le hden _ _).trans
  apply Int.ediv_le_ediv hden
  apply Int.mul_le_mul_of_nonneg_right hsum
  exact Int.mul_nonneg (Int.natCast_nonneg _) (Int.natCast_nonneg _)

theorem length_nonneg (hcs : Honest last first false cs) : ∀ x ∈ (laps 0 cs).map (Lap.length u),
    0 ≤ x := by
  rw [List.forall_mem_map]
  intro l hl
  obtain ⟨-, hle, -⟩ := mem_laps hcs (fun h => nomatch h) le_rfl l hl
  apply Int.ediv_nonneg _ (Int.natCast_nonneg _)
  exact Int.mul_nonneg (Int.mul_nonneg (Int.sub_nonneg.mpr hle) (Int.natCast_nonneg _))
    (Int.natCast_nonneg _)

/-! ## One call -/

variable [DecidableEq ι] {ls : List (Lap ι)} {bufs : ι → Slice T.Val} {w : Watch ι T}

/-- What goes into one of the samples. -/
def lengths (u : Durations) (i : ι) (ls : List (Lap ι)) : List Int :=
  (ls.filter (·.into = i)).map (Lap.length u)

/-- What the calls return, if something is being timed when `on`, and `n` is how often each sample
has been given something. -/
def replies (len : ι → Nat) : Bool → (ι → Nat) → List (Call ι) → List Result
  | _, _, [] => []
  | _, n, .start _ :: cs => .start :: replies len true n cs
  | on, n, .started :: cs => .started on :: replies len on n cs
  | _, n, .sample i _ :: cs =>
    .sample (if n i < len i then .success else .bufferFull) ::
      replies len false (Function.update n i (n i + 1)) cs

/-- All that passes between the first and the last reading can be counted. -/
structure Fits (u : Durations) (T : IntType) (first last : Int) : Prop where
  le : first ≤ last
  first_pos : 0 < first
  read : last * u.perTick ≤ IntType.i64.max
  scaled : (last - first) * u.perTick * u.num ≤ IntType.i64.max
  counted : (last - first) * u.perTick * u.num / u.den ≤ T.max

namespace Fits

variable {b e : Int} {now : IntType.i64.Val}

theorem read_eq (h : Fits u T first last) (hfirst : first ≤ now.val) (hlast : now.val ≤ last) :
    ∃ t, Time.read u now = pure t ∧ t.val = now.val * u.perTick := by
  have hfits := h.read
  have hpos := h.first_pos
  have hle : now.val * (u.perTick : Int) ≤ last * u.perTick :=
    Int.mul_le_mul_of_nonneg_right hlast (Int.natCast_nonneg _)
  have hnonneg : 0 ≤ now.val * (u.perTick : Int) :=
    Int.mul_nonneg (by omega) (Int.natCast_nonneg _)
  have hin : IntType.i64.InRange (now.val * u.perTick) :=
    IntType.inRange_of_le hnonneg (hle.trans hfits)
  exact ⟨⟨_, hin⟩, Eval.arith_of_inRange hin, rfl⟩

/-- An interval within that time is counted exactly, whatever is cut off of it. -/
theorem castTransform_eq (h : Fits u T first last) (hfirst : first ≤ b) (hle : b ≤ e)
    (hlast : e ≤ last) {n : IntType.i64.Val} (hn : n.val = (e - b) * u.perTick) :
    ∃ v, Time.castTransform u T n = pure v ∧ v.val = (e - b) * u.perTick * u.num / u.den := by
  have hden : (0 : Int) < u.den := by
    have := u.den_pos
    omega
  have hnonneg : 0 ≤ (e - b) * u.perTick * u.num :=
    Int.mul_nonneg (Int.mul_nonneg (by omega) (Int.natCast_nonneg _)) (Int.natCast_nonneg _)
  have hmono : (e - b) * u.perTick * u.num ≤ (last - first) * u.perTick * u.num := by
    apply Int.mul_le_mul_of_nonneg_right _ (Int.natCast_nonneg _)
    apply Int.mul_le_mul_of_nonneg_right _ (Int.natCast_nonneg _)
    omega
  have hscaled : IntType.i64.InRange (n.val * u.num) := by
    rw [hn]
    exact IntType.inRange_of_le hnonneg (hmono.trans h.scaled)
  have hcounted : T.InRange ((e - b) * u.perTick * u.num / u.den) :=
    IntType.inRange_of_le (Int.ediv_nonneg hnonneg hden.le)
      ((Int.ediv_le_ediv hden hmono).trans h.counted)
  refine ⟨⟨_, hcounted⟩, ?_, rfl⟩
  rw [Time.castTransform, Eval.arith_of_inRange hscaled, pure_bind]
  simp only [hn]
  rw [Int.tdiv_eq_ediv_of_nonneg hnonneg, Eval.intCast_of_inRange hcounted]

end Fits

/-- The sample has been given `xs`, and has room for `len` of them. -/
def Given (s : Sample T) (len : Nat) (xs : List Int) : Prop :=
  s.samples.len = len ∧ ∃ l, s.Holds l ∧ l.map Subtype.val = xs.take len

theorem Given.push {s : Sample T} {len : Nat} {xs : List Int} (h : Given s len xs) (v : T.Val) :
    ∃ s', s.push v = pure (if xs.length < len then .success else .bufferFull, s') ∧
      Given s' len (xs ++ [v.val]) := by
  obtain ⟨hlen, l, hholds, hl⟩ := h
  obtain ⟨s', hpush, hlen', hnext⟩ := hholds.push v
  rw [hlen] at hpush hlen' hnext
  have hroom : l.length < len ↔ xs.length < len := by
    have hcount := congrArg List.length hl
    rw [List.length_map, List.length_take] at hcount
    omega
  simp only [hroom] at hpush
  refine ⟨s', hpush, hlen', _, hnext, ?_⟩
  rw [Sample.after]
  split
  · next hlt =>
      have hxs := hroom.mp hlt
      rw [List.map_append, hl, List.map_singleton, List.take_of_length_le hxs.le,
        List.take_of_length_le]
      rw [List.length_append]
      exact hxs
  · next hge => rw [hl, List.take_append_of_le_length (Nat.le_of_not_lt (mt hroom.mpr hge))]

/-- The intervals `ls` are timed, and another one is since `begun` if the timer is `on`. -/
structure At (u : Durations) (bufs : ι → Slice T.Val) (ls : List (Lap ι)) (on : Bool) (begun : Int)
    (w : Watch ι T) : Prop where
  t0 : w.time.t0.val = if on then begun * u.perTick else 0
  samples : ∀ i, Given (w.samples i) (bufs i).len (lengths u i ls)

theorem at_new (u : Durations) (bufs : ι → Slice T.Val) : At u bufs [] false 0 (new bufs) where
  t0 := rfl
  samples := fun i => ⟨rfl, [], Sample.new_holds (bufs i), List.take_nil.symm⟩

theorem At.started (h : At u bufs ls on begun w) (hbegun : on = true → 0 < begun) :
    w.time.started = on := by
  have hsentinel : w.time.started = decide (w.time.t0.val ≠ 0) := by
    rw [Time.started, Time.SENTINEL]
    simp only [ne_eq, Subtype.ext_iff]
    rfl
  rw [hsentinel, h.t0]
  cases on with
  | false => rfl
  | true =>
      have hpos : 0 < begun * (u.perTick : Int) :=
        Int.mul_pos (hbegun rfl) (Int.natCast_pos.mpr u.perTick_pos)
      rw [if_pos rfl]
      exact decide_eq_true hpos.ne'

theorem lengths_concat (u : Durations) (i : ι) (ls : List (Lap ι)) (l : Lap ι) :
    lengths u i (ls ++ [l]) =
      if l.into = i then lengths u i ls ++ [l.length u] else lengths u i ls := by
  rw [lengths, List.filter_append, List.map_append]
  split
  · next h => simp [lengths, h]
  · next h => simp [lengths, h]

/-! ## Runs -/

variable {now : IntType.i64.Val} {i : ι}

theorem At.start (hf : Fits u T first last) (h : At u bufs ls on begun w) (hfirst : first ≤ now.val)
    (hlast : now.val ≤ last) :
    ∃ w', w.call u (.start now) = pure (.start, w') ∧ At u bufs ls true now.val w' := by
  obtain ⟨t, hread, ht⟩ := hf.read_eq hfirst hlast
  refine ⟨{ w with time := ⟨t⟩ }, ?_, ?_, h.samples⟩
  · rw [call, Time.start, hread, pure_bind, pure_bind]
  · rw [if_pos rfl]
    exact ht

/-- **What is sampled is the interval since it was begun.** -/
theorem At.sample (hf : Fits u T first last) (h : At u bufs ls true begun w) (hfirst : first ≤ begun)
    (hle : begun ≤ now.val) (hlast : now.val ≤ last) :
    ∃ w', w.call u (.sample i now) =
        pure (.sample (if (lengths u i ls).length < (bufs i).len then .success else .bufferFull),
          w') ∧
      At u bufs (ls ++ [⟨i, begun, now.val⟩]) false 0 w' := by
  obtain ⟨t, hread, ht⟩ := hf.read_eq (hfirst.trans hle) hlast
  have hstarted : w.time.t0.val = begun * u.perTick := h.t0
  have hdiff : t.val - w.time.t0.val = (now.val - begun) * u.perTick := by
    rw [ht, hstarted, Int.sub_mul]
  have hin : IntType.i64.InRange (t.val - w.time.t0.val) := by
    have ht₂ := t.property.2
    have hpos := hf.first_pos
    have hbegun : 0 ≤ begun * (u.perTick : Int) :=
      Int.mul_nonneg (by omega) (Int.natCast_nonneg _)
    have hlen : 0 ≤ (now.val - begun) * (u.perTick : Int) :=
      Int.mul_nonneg (by omega) (Int.natCast_nonneg _)
    exact IntType.inRange_of_le (by omega) (by omega)
  obtain ⟨v, hcast, hv⟩ := hf.castTransform_eq hfirst hle hlast (n := ⟨_, hin⟩) hdiff
  obtain ⟨s, hpush, hgiven⟩ := (h.samples i).push v
  refine ⟨⟨⟨Time.SENTINEL⟩, Function.update w.samples i s⟩, ?_, rfl, ?_⟩
  · rw [call, Time.sample, hread, pure_bind, Eval.arith_of_inRange hin, pure_bind, hcast, pure_bind,
      hpush, pure_bind, pure_bind]
  · intro j
    dsimp only
    rw [lengths_concat]
    by_cases hj : i = j
    · subst hj
      rw [Function.update_self, if_pos rfl, Lap.length, ← hv]
      exact hgiven
    · rw [Function.update_of_ne (Ne.symm hj), if_neg hj]
      exact h.samples j

/-- What is given to one sample is one more for it alone. -/
theorem update_length_lengths (u : Durations) (ls : List (Lap ι)) (l : Lap ι) :
    Function.update (fun j => (lengths u j ls).length) l.into ((lengths u l.into ls).length + 1) =
      fun j => (lengths u j (ls ++ [l])).length := by
  funext j
  rw [lengths_concat]
  by_cases hj : l.into = j
  · subst hj
    rw [Function.update_self, if_pos rfl, List.length_append]
    rfl
  · rw [Function.update_of_ne (Ne.symm hj), if_neg hj]

theorem calls_cons {c : Call ι} {w₁ w' : Watch ι T} {r : Result} {rs : List Result}
    (hcall : w.call u c = pure (r, w₁)) (hcalls : w₁.calls u cs = pure (rs, w')) :
    w.calls u (c :: cs) = pure (r :: rs, w') := by
  rw [Watch.calls, hcall, pure_bind]
  dsimp only
  rw [hcalls, pure_bind]

/-- **Any calls** are answered, and add to what is timed. -/
theorem At.calls (hf : Fits u T first last) (h : At u bufs ls on begun w)
    (hcs : Honest last clock on cs) (hon : on = true → first ≤ begun ∧ begun ≤ clock)
    (hclock : first ≤ clock) :
    ∃ w' on' begun', w.calls u cs =
        pure (replies (fun i => (bufs i).len) on (fun i => (lengths u i ls).length) cs, w') ∧
      At u bufs (ls ++ laps begun cs) on' begun' w' := by
  induction cs generalizing clock on begun ls w with
  | nil => exact ⟨w, on, begun, rfl, by rwa [laps, List.append_nil]⟩
  | cons c cs ih =>
      cases c with
      | start now =>
          obtain ⟨hle, hlast, hrest⟩ := hcs
          obtain ⟨w₁, hcall, h₁⟩ := h.start hf (hclock.trans hle) hlast
          obtain ⟨w', on', begun', hcalls, h'⟩ :=
            ih h₁ hrest (fun _ => ⟨hclock.trans hle, le_rfl⟩) (hclock.trans hle)
          exact ⟨w', on', begun', calls_cons hcall hcalls, h'⟩
      | started =>
          obtain ⟨w', on', begun', hcalls, h'⟩ := ih h hcs hon hclock
          have hcall : w.call u .started = pure (.started on, w) := by
            rw [call, h.started fun hon' => hf.first_pos.trans_le (hon hon').1]
          exact ⟨w', on', begun', calls_cons hcall hcalls, h'⟩
      | sample i now =>
          obtain ⟨rfl, hle, hlast, hrest⟩ := hcs
          obtain ⟨hfirst, hbegun⟩ := hon rfl
          obtain ⟨w₁, hcall, h₁⟩ := h.sample hf hfirst (hbegun.trans hle) hlast
          obtain ⟨w', on', begun', hcalls, h'⟩ :=
            ih h₁ hrest (fun hoff => nomatch hoff) (hclock.trans hle)
          rw [← update_length_lengths] at hcalls
          refine ⟨w', on', begun', calls_cons hcall hcalls, ?_⟩
          rwa [laps, List.append_cons]

/-! ## Totals -/

/-- **No total overflows**: what one sample has been given is part of what is timed. -/
theorem Given.total {s : Sample T} {len : Nat} (hf : Fits u T first last)
    (hcs : Honest last first false cs) (h : Given s len (lengths u i (laps 0 cs)))
    (hpos : 0 < s.count) :
    ∃ t, s.total = .ok ⟨t, false⟩ ∧ t.val = ((lengths u i (laps 0 cs)).take len).sum := by
  obtain ⟨-, l, hholds, hl⟩ := h
  have hrepresentable : EveryPrefix Sample.Representable l := by
    intro pre hpre
    have hsub : (pre.map Subtype.val).Sublist ((laps 0 cs).map (Lap.length u)) := by
      have htaken := hpre.sublist.map Subtype.val
      rw [hl] at htaken
      exact (htaken.trans (List.take_sublist _ _)).trans (List.filter_sublist.map _)
    have hnonneg := length_nonneg (u := u) hcs
    apply IntType.inRange_of_le
    · exact List.sum_nonneg fun x hx => hnonneg x (hsub.subset hx)
    · exact ((hsub.sum_le_sum hnonneg).trans (sum_length_le hf.le hcs)).trans hf.counted
  refine ⟨⟨Sample.sum l, hrepresentable l List.prefix_rfl⟩, ?_, ?_⟩
  · rw [hholds.total hpos, Sample.totalOf_of_representable hrepresentable]
  · rw [← hl]
    rfl

/-- **A timer times intervals.** As long as what passes between the first and the last reading can
be counted, no call fails, each sample gets the lengths of its intervals until it is full, its total
is their sum, and all intervals together are no longer than the time that has passed. -/
theorem times (hf : Fits u T first last) (hcs : Honest last first false cs)
    (bufs : ι → Slice T.Val) :
    ∃ w, (new bufs).calls u cs =
        pure (replies (fun i => (bufs i).len) false (fun _ => 0) cs, w) ∧
      (∀ i, ((w.samples i).span.map Subtype.val).Perm
        ((lengths u i (laps 0 cs)).take (bufs i).len)) ∧
      (∀ i, 0 < (w.samples i).count → ∃ t, (w.samples i).total = .ok ⟨t, false⟩ ∧
        t.val = ((lengths u i (laps 0 cs)).take (bufs i).len).sum) ∧
      ((laps 0 cs).map (Lap.length u)).sum ≤ (last - first) * u.perTick * u.num / u.den := by
  obtain ⟨w, on, begun, hcalls, hat⟩ :=
    (at_new u bufs).calls hf hcs (fun h => nomatch h) le_rfl
  rw [List.nil_append] at hat
  refine ⟨w, hcalls, ?_, ?_, sum_length_le hf.le hcs⟩
  · intro i
    obtain ⟨-, l, hholds, hl⟩ := hat.samples i
    rw [← hl]
    exact hholds.span_perm.map _
  · intro i hpos
    exact (hat.samples i).total hf hcs hpos

/-- `steady_clock` in nanoseconds, sampled in microseconds. -/
def microseconds : Durations := ⟨1, 1, 1000, by decide, by decide⟩

/-- Two intervals, and between them a start that is started over. -/
def twoLaps : List (Call Bool) :=
  [.start (IntType.i64.wrap 1), .started, .sample true (IntType.i64.wrap 1500), .started,
    .start (IntType.i64.wrap 1600), .start (IntType.i64.wrap 2000),
    .sample false (IntType.i64.wrap 4999)]

example : (laps 0 twoLaps).map (Lap.length microseconds) = [1, 2] := by decide +kernel

theorem times_twoLaps : ∃ w : Watch Bool .u8,
    (new fun _ => ⟨fun _ => 0, 1, by decide⟩ : Watch Bool .u8).calls microseconds twoLaps =
      pure (replies (fun _ => 1) false (fun _ => 0) twoLaps, w) ∧
    (∀ i, ((w.samples i).span.map Subtype.val).Perm
      ((lengths microseconds i (laps 0 twoLaps)).take 1)) ∧
    (∀ i, 0 < (w.samples i).count → ∃ t, (w.samples i).total = .ok ⟨t, false⟩ ∧
      t.val = ((lengths microseconds i (laps 0 twoLaps)).take 1).sum) ∧
    ((laps 0 twoLaps).map (Lap.length microseconds)).sum ≤ (4999 - 1) * 1 * 1 / 1000 :=
  have hcs : Honest 4999 1 false twoLaps :=
    ⟨by decide, by decide, rfl, by decide, by decide, by decide, by decide, by decide, by decide,
      rfl, by decide, by decide, trivial⟩
  times ⟨by decide, by decide, by decide, by decide, by decide⟩ hcs _

end Watch

end Shclog
