import QubitPulse.Json.Reader
import QubitPulse.Json.Writer
import QubitPulse.Parameter.Table

/-!
# Drive strengths of a spin chain

The strengths with which a chain drives rotations about x and z and the exchange of neighbours, in
cycles as they are given, and in angular units as the pulses need them.
-/
namespace QubitPulse

structure ChainStrengths (α : Type) where
  sx : ParamValue α
  sz : ParamValue α
  sxsy : ParamValue α
  deriving DecidableEq, Repr

namespace ChainStrengths

variable {α : Type}

section Defaults

variable [Scalar α]

def defaultSx : α := Scalar.ofDecimal 25 2

def defaultSz : α := Scalar.one

def defaultSxsy : α := Scalar.ofDecimal 1 1

def default : ChainStrengths α := ⟨.scalar defaultSx, .scalar defaultSz, .scalar defaultSxsy⟩

end Defaults

section Normalization

variable [Scalar α]

/-- An explicit list of values whose number is not the one needed. -/
def countFault? (needed : Nat) (value : ParamValue α) : Option (ParameterFault α) :=
  (value.explicitLength?.filter (· ≠ needed)).map (.wrongCount needed)

/-- The first value that is not finite and positive. -/
def valueFault? (values : List α) : Option (ParameterFault α) :=
  (values.find? (fun x => !Scalar.isPositive x)).map .notPositive

def refuse (name : String) : Option (ParameterFault α) → Result α Unit
  | some fault => .error (.invalidParameter name fault)
  | none => .ok ()

/-- Checks one parameter, the number of its values first, and stores it in angular units. -/
def store (t : ParameterTable α) (p : String × ParamValue α × Nat) :
    Result α (ParameterTable α) := do
  let (name, value, needed) := p
  refuse name (countFault? needed value)
  refuse name (valueFault? (← value.expand needed))
  t.insertScaled name value needed

/-- The table of strengths that the pulses are computed from, if every strength is usable. -/
def normalize (s : ChainStrengths α) (numQubits numCouplings : Nat) :
    Result α (ParameterTable α) :=
  [("sx", s.sx, numQubits), ("sz", s.sz, numQubits), ("sxsy", s.sxsy, numCouplings)].foldlM
    store .empty

end Normalization

variable [ScalarText α]

def toJson (s : ChainStrengths α) : Json.Value :=
  .record [("sx", s.sx.toJson), ("sz", s.sz.toJson), ("sxsy", s.sxsy.toJson)]

def toDocument (s : ChainStrengths α) : String := s.toJson.compact

/-- Strengths of a document. What it leaves out has its default. -/
def ofJson? [Scalar α] (v : Json.Value) : Option (ChainStrengths α) := do
  let [sx, sz, sxsy] ← v.fields? ["sx", "sz", "sxsy"] true | none
  let sx ← Json.Value.withDefault default.sx ParamValue.ofJson? sx
  let sz ← Json.Value.withDefault default.sz ParamValue.ofJson? sz
  let sxsy ← Json.Value.withDefault default.sxsy ParamValue.ofJson? sxsy
  return ⟨sx, sz, sxsy⟩

def ofDocument [Scalar α] (document : String) : Result α (ChainStrengths α) :=
  match (Json.Value.parse? document).bind ofJson? with
  | none => .error (.jsonError "strengths")
  | some s => .ok s

end ChainStrengths
end QubitPulse
