import QubitPulse.Gate.Kind
import QubitPulse.Error
import QubitPulse.Scalar

/-!
# Gates

A gate is a kind together with the qubits it acts on and, for some kinds, an angle. A gate may be
written down with the wrong number of qubits or without its angle; `Gate.validate` says whether it is
well-formed, and if not, what is wrong first.
-/
namespace QubitPulse

structure Gate (α : Type) where
  kind : GateKind
  targets : List Nat
  controls : List Nat
  angle : Option α
  deriving DecidableEq, Repr

namespace Gate

variable {α : Type}

def rx (target : Nat) (angle : α) : Gate α := ⟨.rx, [target], [], some angle⟩

def ry (target : Nat) (angle : α) : Gate α := ⟨.ry, [target], [], some angle⟩

def rz (target : Nat) (angle : α) : Gate α := ⟨.rz, [target], [], some angle⟩

def x (target : Nat) : Gate α := ⟨.x, [target], [], none⟩

def y (target : Nat) : Gate α := ⟨.y, [target], [], none⟩

def z (target : Nat) : Gate α := ⟨.z, [target], [], none⟩

def h (target : Nat) : Gate α := ⟨.h, [target], [], none⟩

def cnot (control target : Nat) : Gate α := ⟨.cnot, [target], [control], none⟩

def cz (control target : Nat) : Gate α := ⟨.cz, [target], [control], none⟩

def swap (q₁ q₂ : Nat) : Gate α := ⟨.swap, [q₁, q₂], [], none⟩

def iSwap (q₁ q₂ : Nat) : Gate α := ⟨.iSwap, [q₁, q₂], [], none⟩

def sqrtISwap (q₁ q₂ : Nat) : Gate α := ⟨.sqrtISwap, [q₁, q₂], [], none⟩

def globalPhase (phase : α) : Gate α := ⟨.globalPhase, [], [], some phase⟩

def name (g : Gate α) : String := g.kind.name

/-- Every qubit the gate acts on, controls first. -/
def qubits (g : Gate α) : List Nat := g.controls ++ g.targets

def isTwoQubit (g : Gate α) : Bool := g.qubits.length = 2

def fault (g : Gate α) (f : GateFault α) : Error α := .invalidGateArgument g.name f

def requireAngle (g : Gate α) : Result α α :=
  match g.angle with
  | some a => .ok a
  | none => .error (g.fault .missingAngle)

def target (g : Gate α) : Result α Nat :=
  match g.targets with
  | q :: _ => .ok q
  | [] => .error (g.fault .missingTarget)

/-- First member of a list that a later position repeats. -/
def firstRepeated? : List Nat → Option Nat
  | [] => none
  | q :: qs => if qs.contains q then some q else firstRepeated? qs

section Validation

variable [Scalar α]

def angleFault? (g : Gate α) : Option (GateFault α) :=
  match g.kind.takesAngle, g.angle with
  | true, none => some .missingAngle
  | true, some a => if Scalar.isFinite a then none else some (.nonFiniteAngle a)
  | false, some _ => some .unexpectedAngle
  | false, none => none

/-- The first thing that is wrong with a gate: the number of targets, the number of controls, the
angle, a qubit that occurs twice. -/
def firstFault? (g : Gate α) : Option (GateFault α) :=
  if g.targets.length ≠ g.kind.numTargets then
    some (.targetCount g.kind.numTargets g.targets.length)
  else if g.controls.length ≠ g.kind.numControls then
    some (.controlCount g.kind.numControls g.controls.length)
  else match g.angleFault? with
    | some f => some f
    | none => (firstRepeated? g.qubits).map .repeatedQubit

def validate (g : Gate α) : Result α Unit :=
  match g.firstFault? with
  | some f => .error (g.fault f)
  | none => .ok ()

def new (kind : GateKind) (targets controls : List Nat) (angle : Option α) :
    Result α (Gate α) :=
  let g : Gate α := ⟨kind, targets, controls, angle⟩
  g.validate.map fun _ => g

end Validation

def qubitList (qs : List Nat) : String :=
  bracketed (qs.map toString)

section Text

variable [Scalar α] [ScalarText α]

/-- An angle within `10 ^ -12` of a half turn in either sense is shown in units of π, any other with
four places. -/
def angleText (a : α) : String :=
  if Scalar.lt (Scalar.abs (Scalar.abs a - Scalar.pi)) (Scalar.ofDecimal 1 12) then
    "(" ++ ScalarText.plain (Scalar.signum a) ++ "π)"
  else "(" ++ ScalarText.fixed a ++ ")"

/-- Name, angle, controls and targets; what is absent is left out. -/
def describe (g : Gate α) : String :=
  g.name ++ (match g.angle with | some a => angleText a | none => "") ++
    (if g.controls.isEmpty then "" else " c" ++ qubitList g.controls) ++
    (if g.targets.isEmpty then "" else " t" ++ qubitList g.targets)

end Text

section Documents

variable [ScalarText α]

def toJson (g : Gate α) : Json.Value :=
  .record [("kind", g.kind.toJson), ("targets", .list .nat g.targets),
    ("controls", .list .nat g.controls), ("arg", .orNull Json.Value.scalar g.angle)]

/-- A gate of a document; it need not be well-formed. -/
def ofJson? (v : Json.Value) : Option (Gate α) := do
  let [kind, targets, controls, angle] ←
    v.fields? ["kind", "targets", "controls", "arg"] false | none
  let kind ← Json.Value.required GateKind.ofJson? kind
  let targets ← Json.Value.required (Json.Value.list? Json.Value.nat?) targets
  let controls ← Json.Value.required (Json.Value.list? Json.Value.nat?) controls
  let angle ← Json.Value.optional Json.Value.scalar? angle
  return ⟨kind, targets, controls, angle⟩

end Documents
end Gate
end QubitPulse
