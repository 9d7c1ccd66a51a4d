import QubitPulse.Decomposition
import QubitPulse.SpinChain.Strengths

/-!
# Pulses of a spin chain

A rotation by an angle is driven at the strength of its qubit, for a time in proportion to the angle
and with its sign; an exchange gate drives the exchange of its pair backwards for a fixed angle.
Controls are numbered by qubit for x, then by qubit for z, then by coupled pair.
-/
namespace QubitPulse

/-- What the handlers of a chain know. -/
structure ChainContext (α : Type) where
  numQubits : Nat
  couplings : List (Nat × Nat)
  strengths : ParameterTable α

namespace ChainContext

variable {α : Type}

def xControl (_ : ChainContext α) (q : Nat) : Nat := q

def zControl (c : ChainContext α) (q : Nat) : Nat := c.numQubits + q

def exchangeControl (c : ChainContext α) (k : Nat) : Nat := 2 * c.numQubits + k

def checkQubit (c : ChainContext α) (q : Nat) : Result α Unit :=
  if c.numQubits ≤ q then .error (.gateQubitMismatch q c.numQubits) else .ok ()

/-- Whether a coupling joins two qubits, in either order. -/
def joins (q₁ q₂ : Nat) (pair : Nat × Nat) : Bool :=
  pair = (q₁, q₂) || pair = (q₂, q₁)

/-- Number of the coupling between two qubits of the chain. -/
def couplingIndex (c : ChainContext α) (q₁ q₂ : Nat) : Result α Nat := do
  c.checkQubit q₁
  c.checkQubit q₂
  match c.couplings.findIdx? (joins q₁ q₂) with
  | some k => .ok k
  | none => .error (.topologyViolation q₁ q₂)

variable [Scalar α]

/-- Drives a rotation at the strength that the table has under a name. -/
def rotation (name : String) (control : ChainContext α → Nat → Nat) :
    GateHandler (ChainContext α) α := fun c g b => do
  let theta ← g.requireAngle
  let q ← g.target
  c.checkQubit q
  let s ← c.strengths.valueAt name q
  b.drive (Scalar.abs theta / (Scalar.two * s)) [(control c q, s * Scalar.signum theta)]

/-- Drives the exchange of a coupled pair through an angle. -/
def exchange (angle : α) : GateHandler (ChainContext α) α := fun c g b =>
  match g.targets with
  | [q₁, q₂] => do
    let k ← c.couplingIndex q₁ q₂
    let s ← c.strengths.valueAt "sxsy" k
    b.drive (angle / s) [(c.exchangeControl k, -s)]
  | _ => .error (g.fault .notTwoTargets)

def registry : Registry (ChainContext α) α :=
  Registry.empty
    |>.register .rx (rotation "sx" xControl)
    |>.register .rz (rotation "sz" zControl)
    |>.register .iSwap (exchange (Scalar.pi / Scalar.ofNat 4))
    |>.register .sqrtISwap (exchange (Scalar.pi / Scalar.ofNat 8))

end ChainContext
end QubitPulse
