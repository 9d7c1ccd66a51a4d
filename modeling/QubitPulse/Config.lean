import QubitPulse.Decoherence
import QubitPulse.Json.Reader
import QubitPulse.Json.Writer

/-!
# Configurations

Size of the register, relaxation times, whether global phases are tracked, and the step at which
pulses are sampled for display.
-/
namespace QubitPulse

structure Config (α : Type) where
  numQubits : Nat
  t1 : Option (ParamValue α)
  t2 : Option (ParamValue α)
  correctGlobalPhase : Bool
  rasterStep : α
  deriving DecidableEq, Repr

namespace Config

variable {α : Type}

section Construction

variable [Scalar α]

def defaultRasterStep : α := Scalar.ofDecimal 1 2

/-- An ideal register that tracks global phases. -/
def new (numQubits : Nat) : Config α := ⟨numQubits, none, none, true, defaultRasterStep⟩

def default : Config α := new 1

end Construction

section Checks

variable [Scalar α]

def decoherence (c : Config α) : Result α (Decoherence α) :=
  Decoherence.ofParams c.numQubits c.t1 c.t2

def validate (c : Config α) : Result α Unit :=
  if c.numQubits = 0 then .error (.invalidConfig .noQubits)
  else if !Scalar.isPositive c.rasterStep then
    .error (.invalidConfig (.rasterStep c.rasterStep))
  else c.decoherence.map fun _ => ()

def sameValue : ParamValue α → ParamValue α → Bool
  | .scalar x, .scalar y => Scalar.eq x y
  | .perQubit xs, .perQubit ys =>
    xs.length = ys.length && (xs.zip ys).all fun p => Scalar.eq p.1 p.2
  | _, _ => false

def sameOption : Option (ParamValue α) → Option (ParamValue α) → Bool
  | none, none => true
  | some v, some w => sameValue v w
  | _, _ => false

def same (c d : Config α) : Bool :=
  c.numQubits = d.numQubits && sameOption c.t1 d.t1 && sameOption c.t2 d.t2 &&
    c.correctGlobalPhase = d.correctGlobalPhase && Scalar.eq c.rasterStep d.rasterStep

end Checks

variable [ScalarText α]

def describe (c : Config α) : String :=
  s!"Processor Configuration\n  Qubits: {c.numQubits}\n  T1: " ++
    ParamValue.describeOption ParamValue.describe c.t1 ++ "\n  T2: " ++
    ParamValue.describeOption ParamValue.describe c.t2 ++
    s!"\n  Global phase correction: {c.correctGlobalPhase}\n  Raster step: " ++
    ScalarText.plain c.rasterStep

def toJson (c : Config α) : Json.Value :=
  .record [("num_qubits", .nat c.numQubits), ("t1", .orNull ParamValue.toJson c.t1),
    ("t2", .orNull ParamValue.toJson c.t2),
    ("correct_global_phase", .bool c.correctGlobalPhase),
    ("raster_step", Json.Value.scalar c.rasterStep)]

def toDocument (c : Config α) : String := c.toJson.indented

variable [Scalar α]

/-- A configuration of a document. What it leaves out has its default. -/
def ofJson? (v : Json.Value) : Option (Config α) := do
  let [numQubits, t1, t2, correct, step] ←
    v.fields? ["num_qubits", "t1", "t2", "correct_global_phase", "raster_step"] true | none
  let numQubits ← Json.Value.withDefault 1 Json.Value.nat? numQubits
  let t1 ← Json.Value.optional ParamValue.ofJson? t1
  let t2 ← Json.Value.optional ParamValue.ofJson? t2
  let correct ← Json.Value.withDefault true Json.Value.bool? correct
  let step ← Json.Value.withDefault defaultRasterStep Json.Value.scalar? step
  return ⟨numQubits, t1, t2, correct, step⟩

def ofDocument (document : String) : Result α (Config α) :=
  match (Json.Value.parse? document).bind ofJson? with
  | none => .error (.jsonError "configuration")
  | some c => c.validate.map fun _ => c

/-- The configuration that a file holds; without contents there is no such file. -/
def load (contents : Option String) : Result α (Config α) :=
  match contents with
  | none => .error (.fileError "not found")
  | some document => ofDocument document

end Config
end QubitPulse
