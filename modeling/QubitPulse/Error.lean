import QubitPulse.Decimal.Text
import QubitPulse.Timeline.Interpolation

/-!
# Errors

Every fallible operation of the library fails with one of the causes below. The causes carry the
values they speak of; their wording is in `Error.message` and the functions before it.
-/
namespace QubitPulse

variable {α : Type}

inductive ParameterFault (α : Type) where
  | wrongCount (expected given : Nat)
  | notPositive (value : α)
  | other (text : String)
  deriving DecidableEq, Repr

inductive DecoherenceFault (α : Type) where
  | wrongCount (label : String) (given qubits : Nat)
  | notPositive (label : String) (qubit : Nat) (time : α)
  | other (text : String)
  deriving DecidableEq, Repr

/-- Why a configuration, a chain or a circuit does not fit. -/
inductive ConfigFault (α : Type) where
  | noQubits
  | rasterStep (step : α)
  | chainSize (most given : Nat)
  | deviceSize (configured : Nat) (device : String) (actual : Nat)
  | circuitSize (circuit processor : Nat)
  | other (text : String)
  deriving DecidableEq, Repr

inductive GateFault (α : Type) where
  | targetCount (expected given : Nat)
  | controlCount (expected given : Nat)
  | missingAngle
  | nonFiniteAngle (angle : α)
  | unexpectedAngle
  | repeatedQubit (qubit : Nat)
  | missingTarget
  | notTwoTargets
  | other (text : String)
  deriving DecidableEq, Repr

/-- Why a pulse, a timeline or a sampling of one is ill-formed. -/
inductive PulseFault (α : Type) where
  | noBreakpoints
  | nonFiniteBreakpoints
  | decreasingBreakpoints
  | nonFiniteCoefficients
  | duration (given : α)
  | coefficient (given : α)
  | rasterStep (given : α)
  | notSteps (given : Interpolation)
  | other (text : String)
  deriving DecidableEq, Repr

/-- Two shapes that should agree and do not. -/
inductive ShapeFault where
  | columns (interpolation : Interpolation) (breakpoints given : Nat)
  | coefficientRows (expected given : Nat)
  | coefficients (expected given : Nat)
  | controlIndex (bound given : Nat)
  | labels (expected given : Nat)
  | other (expected given : String)
  deriving DecidableEq, Repr

inductive SolverFault where
  | nonFiniteGenerator
  | other (text : String)
  deriving DecidableEq, Repr

inductive Error (α : Type) where
  | invalidParameter (name : String) (fault : ParameterFault α)
  | missingParameter (name : String)
  | qubitOutOfRange (qubit most : Nat)
  | invalidT2 (qubit : Nat) (t2 t1 : α)
  | invalidDecoherence (fault : DecoherenceFault α)
  | invalidConfig (fault : ConfigFault α)
  | unsupportedGate (name : String)
  | gateQubitMismatch (qubit numQubits : Nat)
  | invalidGateArgument (gate : String) (fault : GateFault α)
  | topologyViolation (q₁ q₂ : Nat)
  | invalidPulse (fault : PulseFault α)
  | shapeMismatch (fault : ShapeFault)
  | noPulses
  | dimensionMismatch (expected actual : Nat)
  | solverError (fault : SolverFault)
  | jsonError (text : String)
  | fileError (text : String)
  /-- A matrix product whose inner dimensions differ. -/
  | incompatibleProduct
  /-- An array beyond what memory can address. -/
  | tooLarge
  deriving DecidableEq, Repr

abbrev Result (α β : Type) := Except (Error α) β

section Wording

variable [ScalarText α]

def ParameterFault.message : ParameterFault α → String
  | .wrongCount expected given => s!"expected {expected} values, got {given}"
  | .notPositive value => "strengths must be positive and finite, got " ++ ScalarText.plain value
  | .other text => text

def DecoherenceFault.message : DecoherenceFault α → String
  | .wrongCount label given qubits => s!"{label} has {given} entries for {qubits} qubits"
  | .notPositive label qubit time =>
    s!"{label} of qubit {qubit} must be positive, got " ++ ScalarText.plain time
  | .other text => text

def ConfigFault.message : ConfigFault α → String
  | .noQubits => "num_qubits must be >= 1"
  | .rasterStep step => "raster_step must be positive, got " ++ ScalarText.plain step
  | .chainSize most given => s!"spin chain needs 1..={most} qubits, got {given}"
  | .deviceSize configured device actual =>
    s!"config has {configured} qubits but device {device} has {actual}"
  | .circuitSize circuit processor =>
    s!"circuit has {circuit} qubits, processor has {processor}"
  | .other text => text

def GateFault.message : GateFault α → String
  | .targetCount expected given => s!"expected {expected} target(s), got {given}"
  | .controlCount expected given => s!"expected {expected} control(s), got {given}"
  | .missingAngle => "missing angle"
  | .nonFiniteAngle angle => "angle " ++ ScalarText.plain angle ++ " is not finite"
  | .unexpectedAngle => "unexpected angle"
  | .repeatedQubit qubit => s!"qubit {qubit} used twice"
  | .missingTarget => "missing target"
  | .notTwoTargets => "expected two targets"
  | .other text => text

def PulseFault.message : PulseFault α → String
  | .noBreakpoints => "tlist is empty"
  | .nonFiniteBreakpoints => "tlist contains non-finite values"
  | .decreasingBreakpoints => "tlist must be non-decreasing"
  | .nonFiniteCoefficients => "coeffs contain non-finite values"
  | .duration given =>
    "segment duration must be finite and non-negative, got " ++ ScalarText.plain given
  | .coefficient given => "coefficient " ++ ScalarText.plain given ++ " is not finite"
  | .rasterStep given => "raster step must be positive, got " ++ ScalarText.plain given
  | .notSteps given => "analytical evolution needs a step_func timeline, got " ++ given.name
  | .other text => text

/-- What was expected and what was given. -/
def ShapeFault.sides : ShapeFault → String × String
  | .columns i breakpoints given => (i.expectation breakpoints, s!"{given} columns")
  | .coefficientRows expected given =>
    (s!"{expected} coefficient rows", s!"{given} coefficient rows")
  | .coefficients expected given => (s!"{expected} coefficients", s!"{given} coefficients")
  | .controlIndex bound given => (s!"control index < {bound}", s!"control index {given}")
  | .labels expected given => (s!"{expected} labels", s!"{given} labels")
  | .other expected given => (expected, given)

def SolverFault.message : SolverFault → String
  | .nonFiniteGenerator => "matrix exponential of non-finite matrix"
  | .other text => text

def Error.message : Error α → String
  | .invalidParameter name fault => s!"Invalid parameter '{name}': " ++ fault.message
  | .missingParameter name => s!"Missing parameter '{name}'"
  | .qubitOutOfRange qubit most => s!"Qubit {qubit} out of range: max is {most}"
  | .invalidT2 qubit t2 t1 =>
    "Invalid T2 (" ++ ScalarText.fixed t2 ++ s!") on qubit {qubit}: must be <= 2*T1 (" ++
      ScalarText.fixed t1 ++ ")"
  | .invalidDecoherence fault => "Invalid decoherence: " ++ fault.message
  | .invalidConfig fault => "Invalid configuration: " ++ fault.message
  | .unsupportedGate name => s!"Unsupported gate {name}"
  | .gateQubitMismatch qubit numQubits =>
    s!"Gate references qubit {qubit} but circuit has only {numQubits} qubits"
  | .invalidGateArgument gate fault => s!"Invalid argument for gate {gate}: " ++ fault.message
  | .topologyViolation q₁ q₂ =>
    s!"Topology violation: qubits {q₁} and {q₂} are not coupled"
  | .invalidPulse fault => "Invalid pulse: " ++ fault.message
  | .shapeMismatch fault =>
    "Shape mismatch: expected " ++ fault.sides.1 ++ ", got " ++ fault.sides.2
  | .noPulses => "No pulses loaded: supply a circuit or set a timeline before evolving"
  | .dimensionMismatch expected actual =>
    s!"Dimension mismatch: expected {expected}, got {actual}"
  | .solverError fault => "Solver error: " ++ fault.message
  | .jsonError text => "JSON error: " ++ text
  | .fileError text => "File error: " ++ text
  | .incompatibleProduct => "matrix product of incompatible shapes"
  | .tooLarge => "array too large to address"

end Wording

namespace Error

/-- Errors that no caller can recover from. -/
def isFatal : Error α → Bool
  | .incompatibleProduct | .tooLarge => true
  | _ => false

def isValidation : Error α → Bool
  | .invalidParameter .. | .missingParameter .. | .qubitOutOfRange .. | .invalidT2 ..
  | .invalidDecoherence .. | .invalidConfig .. => true
  | _ => false

def isCircuit : Error α → Bool
  | .unsupportedGate .. | .gateQubitMismatch .. | .invalidGateArgument ..
  | .topologyViolation .. => true
  | _ => false

/-- Errors of pulses and of the shapes of what they drive. -/
def isPulse : Error α → Bool
  | .invalidPulse .. | .shapeMismatch .. | .noPulses | .dimensionMismatch .. => true
  | _ => false

end Error
end QubitPulse
