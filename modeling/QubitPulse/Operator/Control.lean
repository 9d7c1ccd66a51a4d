import QubitPulse.Operator.Basic
import QubitPulse.Error
import QubitPulse.Json.Stored

/-!
# Control operators

A control operator is a Hamiltonian that a device can switch on, under the label of the channel that
drives it.
-/
namespace QubitPulse

structure ControlOperator (α : Type) where
  label : String
  matrix : Operator α
  deriving DecidableEq

namespace ControlOperator

variable {α : Type} [Scalar α]

def dim (c : ControlOperator α) : Nat := c.matrix.rows

/-- A control of a register; the matrix has to act on its state space. -/
def new (label : String) (matrix : Operator α) (numQubits : Nat) :
    Result α (ControlOperator α) :=
  if !matrix.isSquare || matrix.rows ≠ registerDim numQubits then
    .error (.dimensionMismatch (registerDim numQubits) matrix.rows)
  else .ok ⟨label, matrix⟩

def describe (c : ControlOperator α) : String :=
  s!"{c.label} ({c.dim}x{c.dim})"

variable [ScalarText α]

def toJson (c : ControlOperator α) : Json.Value :=
  .record [("label", .text c.label), ("matrix", Json.Stored.ofGrid Amplitude.toJson c.matrix)]

def ofJson? (v : Json.Value) : Option (ControlOperator α) := do
  let [label, matrix] ← v.fields? ["label", "matrix"] false | none
  let label ← Json.Value.required Json.Value.text? label
  let matrix ← Json.Value.required (Json.Stored.grid? Amplitude.ofJson?) matrix
  return ⟨label, matrix⟩

end ControlOperator
end QubitPulse
