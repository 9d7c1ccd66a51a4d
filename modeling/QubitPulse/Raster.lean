import QubitPulse.Timeline.Basic

/-!
# Rasters

A raster samples a timeline at a fixed step. A segment covers as many samples as whole steps fit
into it; what is left of a segment is dropped and not carried into the next, so that samples at the
end may stay unfilled. Positions are machine words: where breakpoints run backwards, a segment can
be so long that its end wraps around, and the segments after it cover samples anew.
-/
namespace QubitPulse

structure Raster (α : Type) where
  times : Array α
  amplitudes : Grid α
  labels : List String
  step : α
  /-- Where the last segment ends: the number of covered samples, where breakpoints are in order. -/
  filled : Nat
  deriving DecidableEq

namespace Raster

variable {α : Type}

def size (r : Raster α) : Nat := r.times.size

def isEmpty (r : Raster α) : Bool := r.times.isEmpty

section Sampling

variable [Scalar α]

/-- Evenly spaced times from zero to the end. A single sample stands at zero. -/
@[specialize] def spaced (stop : α) (n : Nat) : Array α :=
  let width := if 1 < n then (stop - Scalar.zero) / Scalar.ofNat (n - 1) else Scalar.zero
  Array.ofFn (n := n) fun i => Scalar.zero + width * Scalar.ofNat i.val

/-- Gives `count` entries from a position on a new value. -/
def fill {β : Type} (x : β) : (start count : Nat) → Array β → Array β
  | _, 0, xs => xs
  | start, count + 1, xs => fill x (start + 1) count (xs.setIfInBounds start x)

@[simp] theorem size_fill {β : Type} (x : β) (start count : Nat) (xs : Array β) :
    (fill x start count xs).size = xs.size := by
  induction count generalizing start xs with
  | zero => rfl
  | succ count ih => simp [fill, ih]

theorem getElem?_fill {β : Type} (x : β) (start count j : Nat) {xs : Array β} (hj : j < xs.size) :
    (fill x start count xs)[j]? = if start ≤ j ∧ j < start + count then some x else xs[j]? := by
  induction count generalizing start xs with
  | zero => grind [fill]
  | succ count ih => grind [fill]

/-- Where a segment ends that starts at a position and takes this many samples. Samples beyond the
capacity are cut. -/
def stop (capacity start count : Nat) : Nat := min (Word.wrap (start + count)) capacity

/-- Lays segments out from a position on, one after the other, each given by the number of samples
it takes; they are numbered from `k`. Answers with the segment that each sample is taken from and
with the end of the last segment. Only segments below `columns` have coefficients and cover
samples. -/
def layOut (columns : Nat) :
    (start k : Nat) → List Nat → Array (Option Nat) → Array (Option Nat) × Nat
  | start, _, [], covering => (covering, start)
  | start, k, count :: rest, covering =>
    let next := stop covering.size start count
    layOut columns next (k + 1) rest
      (if k < columns then fill (some k) start (next - start) covering else covering)

/-- Samples a timeline, with one label for every control. -/
@[specialize] def rasterize (t : Timeline α) (labels : List String) (step : α) :
    Result α (Raster α) :=
  if !Scalar.isPositive step then .error (.invalidPulse (.rasterStep step))
  else if labels.length ≠ t.numControls then
    .error (.shapeMismatch (.labels t.numControls labels.length))
  else do
    let total := t.totalDuration
    let n := Scalar.ceilNat (total / step)
    Storage.reserve 1 [n]
    Storage.reserve 1 [t.numControls, n]
    let counts := t.durations.map fun d => Scalar.floorNat (d / step)
    let (covering, filled) := layOut t.coeffs.cols 0 0 counts (Array.replicate n none)
    return {
      times := spaced total n
      amplitudes := Grid.ofFn t.numControls n fun m j =>
        match covering.getD j none with
        | some k => t.coeffs.getD m k Scalar.zero
        | none => Scalar.zero
      labels := labels
      step := step
      filled := filled }

def control? (r : Raster α) (label : String) : Option (List α) :=
  (r.labels.findIdx? (· = label)).map r.amplitudes.row

def series (r : Raster α) : List (String × List α) :=
  r.labels.zipIdx.map fun p => (p.1, r.amplitudes.row p.2)

end Sampling

def toJson [ScalarText α] (r : Raster α) : Json.Value :=
  .record [("times", Json.Stored.ofList Json.Value.scalar r.times.toList),
    ("amplitudes", Json.Stored.ofGrid Json.Value.scalar r.amplitudes),
    ("labels", .list .text r.labels), ("step", Json.Value.scalar r.step), ("filled", .nat r.filled)]

end Raster
end QubitPulse
