import QubitPulse.Grid
import QubitPulse.Json.Reader
import QubitPulse.Json.Stored
import QubitPulse.Json.Writer
import QubitPulse.Scalar
import QubitPulse.Storage

/-!
# Pulse timelines

A timeline is a list of breakpoints in time and a grid of coefficients, one row for every control.
Two consecutive breakpoints bound a segment; column `k` holds the coefficients of segment `k`.
-/
namespace QubitPulse

structure Timeline (α : Type) where
  breakpoints : List α
  coeffs : Grid α
  interpolation : Interpolation
  deriving DecidableEq

namespace Timeline

variable {α : Type}

def numControls (t : Timeline α) : Nat := t.coeffs.rows

def numSegments (t : Timeline α) : Nat := t.breakpoints.length - 1

def isEmpty (t : Timeline α) : Bool := t.numSegments = 0

def checkControls (t : Timeline α) (numControls : Nat) : Result α Unit :=
  if t.numControls ≠ numControls then
    .error (.shapeMismatch (.coefficientRows numControls t.numControls))
  else .ok ()

variable [Scalar α]

def differences : List α → List α
  | a :: b :: rest => (b - a) :: differences (b :: rest)
  | _ => []

def durations (t : Timeline α) : List α := differences t.breakpoints

def totalDuration (t : Timeline α) : α := Scalar.sum t.durations

/-- Coefficients of a column, if there is one. -/
def segmentCoeffs (t : Timeline α) (k : Nat) : Option (List α) := t.coeffs.column? k

/-- Coefficients with one row for every column. -/
def coeffsBySegment (t : Timeline α) : Grid α := t.coeffs.transpose Scalar.zero

/-- Whether some member of a list is less than the one before it. -/
def decreases : List α → Bool
  | a :: b :: rest => Scalar.lt b a || decreases (b :: rest)
  | _ => false

/-- A timeline that can be driven: finite breakpoints in order, at least one of them, finite
coefficients, and a number of columns that its interpolation accepts. -/
def validate (t : Timeline α) : Result α Unit :=
  if t.breakpoints.isEmpty then .error (.invalidPulse .noBreakpoints)
  else if t.breakpoints.any (fun x => !Scalar.isFinite x) then
    .error (.invalidPulse .nonFiniteBreakpoints)
  else if decreases t.breakpoints then .error (.invalidPulse .decreasingBreakpoints)
  else if t.coeffs.entries.any (fun x => !Scalar.isFinite x) then
    .error (.invalidPulse .nonFiniteCoefficients)
  else if !t.interpolation.accepts t.breakpoints.length t.coeffs.cols then
    .error (.shapeMismatch (.columns t.interpolation t.breakpoints.length t.coeffs.cols))
  else .ok ()

def new (breakpoints : List α) (coeffs : Grid α) (interpolation : Interpolation) :
    Result α (Timeline α) :=
  let t : Timeline α := ⟨breakpoints, coeffs, interpolation⟩
  t.validate.map fun _ => t

/-- Running sums of a list, from a first value on. -/
def accumulate (start : α) : List α → List α
  | [] => [start]
  | d :: ds => start :: accumulate (start + d) ds

/-- The timeline that starts at time zero and has these segments, each a duration with its column
of coefficients. The columns are stored already, so that only the number of controls can be beyond
what can be addressed. -/
def ofSegments (numControls : Nat) (segments : List (α × List α)) : Result α (Timeline α) := do
  Storage.reserve 1 [numControls, 0]
  return ⟨accumulate Scalar.zero (segments.map Prod.fst),
    Grid.ofColumns numControls (segments.map Prod.snd) Scalar.zero, .step⟩

/-- One breakpoint at time zero and no segment. -/
def empty (numControls : Nat) : Result α (Timeline α) := ofSegments numControls []

variable [ScalarText α]

def describe (t : Timeline α) : String :=
  s!"PulseTimeline({t.numControls} controls, {t.numSegments} segments, duration=" ++
    ScalarText.fixed t.totalDuration ++ ", " ++ t.interpolation.name ++ ")"

def toJson (t : Timeline α) : Json.Value :=
  .record [("tlist", Json.Stored.ofList Json.Value.scalar t.breakpoints),
    ("coeffs", Json.Stored.ofGrid Json.Value.scalar t.coeffs),
    ("spline_kind", t.interpolation.toJson)]

/-- A timeline of a document; it need not be one that can be driven. -/
def ofJson? (v : Json.Value) : Option (Timeline α) := do
  let [breakpoints, coeffs, interpolation] ←
    v.fields? ["tlist", "coeffs", "spline_kind"] false | none
  let breakpoints ← Json.Value.required (Json.Stored.list? Json.Value.scalar?) breakpoints
  let coeffs ← Json.Value.required (Json.Stored.grid? Json.Value.scalar?) coeffs
  let interpolation ← Json.Value.required Interpolation.ofJson? interpolation
  return ⟨breakpoints, coeffs, interpolation⟩

def toDocument (t : Timeline α) : String := t.toJson.compact

def ofRawDocument (document : String) : Result α (Timeline α) :=
  match (Json.Value.parse? document).bind ofJson? with
  | none => .error (.jsonError "timeline")
  | some t => .ok t

def ofDocument (document : String) : Result α (Timeline α) := do
  let t ← ofRawDocument document
  t.validate.map fun _ => t

end Timeline
end QubitPulse
