import Mathlib.Data.List.Sort
import Shclog.Lib.Run
import Shclog.Math
import Shclog.Collections.Slice

/-! # `Sample`

The class of `sample.hpp` over integers, but for its averages. A buffer collects the values pushed;
the smallest, the greatest and the total are kept up to date along the way, and `percentile` sorts
the buffer in place. As everywhere over `Eval`, the build is a debug build. -/

namespace Shclog

open Lib

structure Sample (T : IntType) where
  samples : Slice T.Val
  samples_sorted : Bool
  count : Nat
  _min : T.Val
  _max : T.Val
  _total : Overflow T.Val

namespace Sample

variable {T : IntType}

inductive MakeError where
  | outOfMemory
  deriving DecidableEq

inductive PushResult where
  | success
  | bufferFull
  deriving DecidableEq

inductive PercentileError where
  | invalidPercentile
  | emptySamples
  deriving DecidableEq

/-- `SampleError`, and `AvgError`, which has the same one case. -/
inductive SampleError where
  | emptySamples
  deriving DecidableEq

/-- The constructor. -/
def new (samples : Slice T.Val) : Sample T where
  samples := samples
  samples_sorted := false
  count := 0
  _min := ⟨T.max, T.inRange_max⟩
  _max := ⟨T.lowest, T.inRange_lowest⟩
  _total := ⟨0, false⟩

/-- `make`, when `Slice<T>::make` returns `slice`. -/
def make (slice : Except Slice.MakeError (Slice T.Val)) : Except MakeError (Sample T) :=
  match slice with
  | .error _ => .error .outOfMemory
  | .ok samples => .ok (new samples)

/-- What `push` does to `_total`. -/
def addTotal (total : Overflow T.Val) (v : T.Val) : Overflow T.Val :=
  if !total.overflow then
    let total := addWithOverflow total.value v
    if total.overflow then { total with value := ⟨T.max, T.inRange_max⟩ } else total
  else total

def push (s : Sample T) (v : T.Val) : Eval (PushResult × Sample T) :=
  if s.count ≥ s.samples.len then pure (.bufferFull, s)
  else do
    let samples ← s.samples.set s.count v
    pure (.success,
      { samples := samples
        samples_sorted := false
        count := s.count + 1
        _min := min s._min v
        _max := max s._max v
        _total := addTotal s._total v })

def span (s : Sample T) : List T.Val := s.samples.toList s.count

/-- `std::ranges::sort(span())`, unless that has been done. -/
def sort (s : Sample T) : Eval (Sample T) :=
  if !s.samples_sorted then do
    Checked.assert (s.count ≤ s.samples.len) .assertion
    pure { s with
      samples := s.samples.storeList (s.span.insertionSort (· ≤ ·))
      samples_sorted := true }
  else pure s

/-- The number that `p` is, if `std::isnan(p) || p > 1.0 || p < 0.0` is false. -/
def percentile? : F64 → Option ℚ
  | .finite p => if p > 1 ∨ p < 0 then none else some p
  | .nan | .negInf | .posInf => none

/-- `percentile`, the product of `p` and `count - 1` taken to be exact. -/
def percentile (s : Sample T) (p : F64) : Eval (Except PercentileError T.Val × Sample T) :=
  match percentile? p with
  | none => pure (.error .invalidPercentile, s)
  | some p =>
    if s.count = 0 then pure (.error .emptySamples, s)
    else do
      let s ← s.sort
      let idx ← Eval.intCastFloat .usize (p * (s.count - 1 : Nat))
      let v ← s.samples.get idx.val.toNat
      pure (.ok v, s)

protected def min (s : Sample T) : Except SampleError T.Val :=
  if s.count = 0 then .error .emptySamples else .ok s._min

protected def max (s : Sample T) : Except SampleError T.Val :=
  if s.count = 0 then .error .emptySamples else .ok s._max

def total (s : Sample T) : Except SampleError (Overflow T.Val) :=
  if s.count = 0 then .error .emptySamples else .ok s._total

def empty (s : Sample T) : Bool := s.count = 0

/-! ## Use -/

/-- A call of one of the functions of the class. -/
inductive Call (T : IntType) where
  | push (v : T.Val)
  | percentile (p : F64)
  | min
  | max
  | total

inductive Result (T : IntType) where
  | push (r : PushResult)
  | percentile (r : Except PercentileError T.Val)
  | min (r : Except SampleError T.Val)
  | max (r : Except SampleError T.Val)
  | total (r : Except SampleError (Overflow T.Val))

/-- What a call returns, and what it makes of the sample. -/
def call (s : Sample T) : Call T → Eval (Result T × Sample T)
  | .push v => do
    let (r, s) ← s.push v
    pure (.push r, s)
  | .percentile p => do
    let (r, s) ← s.percentile p
    pure (.percentile r, s)
  | .min => pure (.min s.min, s)
  | .max => pure (.max s.max, s)
  | .total => pure (.total s.total, s)

/-- A call and what it returned, without a fault. -/
abbrev Event (T : IntType) := Call T × Result T

def Step (s : Sample T) (e : Event T) (s' : Sample T) : Prop := s.call e.1 = pure (e.2, s')

/-- The step a call makes, if it returns. -/
def move (s : Sample T) (c : Call T) : Option (Event T × Sample T) :=
  match s.call c with
  | .value (r, s') false => some ((c, r), s')
  | _ => none

theorem step_of_move (s : Sample T) (c : Call T) (e : Event T) (s' : Sample T)
    (h : move s c = some (e, s')) : Step s e s' := by
  unfold move at h
  split at h
  · next hcall =>
      cases h
      exact hcall
  · cases h

/-- The value a call is to push. -/
def pushed? : Event T → Option T.Val
  | (.push v, _) => some v
  | _ => none

/-- The value a call has pushed. -/
def accepted? : Event T → Option T.Val
  | (.push v, .push .success) => some v
  | _ => none

/-- The values of a run's calls of `push`, in order. -/
def pushed (tr : List (Event T)) : List T.Val := tr.filterMap pushed?

/-- The values of those calls of `push` that returned `Success`. -/
def accepted (tr : List (Event T)) : List T.Val := tr.filterMap accepted?

end Sample

end Shclog
