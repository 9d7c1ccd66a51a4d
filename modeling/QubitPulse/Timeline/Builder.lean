import QubitPulse.Timeline.Basic

/-!
# Building timelines

A builder collects segments one after the other. A segment that is refused leaves the builder as it
was, since a refusal returns no builder at all.
-/
namespace QubitPulse

/-- Segments collected so far, each a duration with one coefficient for every control. The latest
segment comes first. -/
structure PulseBuilder (α : Type) where
  numControls : Nat
  latest : List (α × List α)
  deriving DecidableEq, Repr

namespace PulseBuilder

variable {α : Type}

def new (numControls : Nat) : PulseBuilder α := ⟨numControls, []⟩

def segments (b : PulseBuilder α) : List (α × List α) := b.latest.reverse

def numSegments (b : PulseBuilder α) : Nat := b.latest.length

def durations (b : PulseBuilder α) : List α := b.segments.map Prod.fst

variable [Scalar α]

/-- Why a segment is refused: its duration, its number of coefficients, a coefficient. -/
def refusal? (numControls : Nat) (duration : α) (column : List α) : Option (Error α) :=
  if !Scalar.isDuration duration then some (.invalidPulse (.duration duration))
  else if column.length ≠ numControls then
    some (.shapeMismatch (.coefficients numControls column.length))
  else (column.find? (fun c => !Scalar.isFinite c)).map fun c => .invalidPulse (.coefficient c)

def addSegment (b : PulseBuilder α) (duration : α) (column : List α) :
    Result α (PulseBuilder α) :=
  match refusal? b.numControls duration column with
  | some e => .error e
  | none => .ok { b with latest := (duration, column) :: b.latest }

/-- A column that is zero but for the given controls. Of two amplitudes for one control the later
counts. -/
def columnOf (numControls : Nat) (amplitudes : List (Nat × α)) : List α :=
  amplitudes.foldl (fun column p => column.set p.1 p.2) (List.replicate numControls Scalar.zero)

/-- Appends a segment that drives some controls and leaves the others at zero. -/
def drive (b : PulseBuilder α) (duration : α) (amplitudes : List (Nat × α)) :
    Result α (PulseBuilder α) := do
  Storage.reserve 1 [b.numControls]
  match amplitudes.find? (fun p => b.numControls ≤ p.1) with
  | some (i, _) => .error (.shapeMismatch (.controlIndex b.numControls i))
  | none => b.addSegment duration (columnOf b.numControls amplitudes)

def finish (b : PulseBuilder α) : Result α (Timeline α) :=
  Timeline.ofSegments b.numControls b.segments

end PulseBuilder
end QubitPulse
