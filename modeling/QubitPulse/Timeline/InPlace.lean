import QubitPulse.Timeline.Builder
import QubitPulse.Update

/-!
# Building timelines in place

The builder as its user holds it. Durations and columns are collected apart, so that a segment takes two
writes, and it is not before the timeline is asked for that the columns are stacked to a grid.
-/
namespace QubitPulse

/-- Segments collected so far: their durations, and their columns of coefficients. -/
structure HeldBuilder (α : Type) where
  numControls : Nat
  durations : Array α
  columns : Array (List α)
  deriving DecidableEq, Repr

namespace HeldBuilder

variable {α : Type}

def new (numControls : Nat) : HeldBuilder α := ⟨numControls, #[], #[]⟩

def numSegments (b : HeldBuilder α) : Nat := b.durations.size

/-- Writes amplitudes into a column, one after the other, up to the first for a control that the column
does not have. -/
def place : List (Nat × α) → List α → Result α (List α)
  | [], column => .ok column
  | (control, amplitude) :: rest, column =>
    if control < column.length then place rest (column.set control amplitude)
    else .error (.shapeMismatch (.controlIndex column.length control))

variable [Scalar α]

/-- Appends a segment with a coefficient for every control. -/
def addSegment (duration : α) (column : List α) : Update (HeldBuilder α) α Unit := do
  let b ← get
  match PulseBuilder.refusal? b.numControls duration column with
  | some e => throw e
  | none =>
    modify fun b => { b with durations := b.durations.push duration }
    modify fun b => { b with columns := b.columns.push column }

/-- Appends a segment that drives some controls and leaves the others at zero. -/
def drive (duration : α) (amplitudes : List (Nat × α)) : Update (HeldBuilder α) α Unit := do
  let b ← get
  Update.attempt (Storage.reserve 1 [b.numControls])
  let column ← Update.attempt (place amplitudes (List.replicate b.numControls Scalar.zero))
  addSegment duration column

/-- Stacks the segments to a timeline. There is none if a column lacks the coefficient of a control. -/
def finish (b : HeldBuilder α) : Result α (Option (Timeline α)) := do
  Storage.reserve 1 [b.numControls, 0]
  return (Grid.ofColumns? b.numControls b.columns).map fun coeffs =>
    ⟨Timeline.accumulate Scalar.zero b.durations.toList, coeffs, .step⟩

end HeldBuilder
end QubitPulse
