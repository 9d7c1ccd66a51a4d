import QubitPulse.Decoherence
import QubitPulse.Operator.Embedding

/-!
# Collapse operators

Noise enters the equations of motion by one lowering operator for every qubit that relaxes and one
phase operator for every qubit that dephases, each weighted by the root of its rate.
-/
namespace QubitPulse.Decoherence

variable {α : Type} [Scalar α]

def relaxation (d : Decoherence α) (qubit : Nat) : Result α (List (Operator α)) :=
  match d.relaxationRate? qubit with
  | none => .ok []
  | some gamma => (Operator.embed .sigmaMinus qubit d.numQubits).map fun op =>
      [op.scaleReal (Scalar.sqrt gamma)]

def dephasing (d : Decoherence α) (qubit : Nat) : Result α (List (Operator α)) :=
  match d.dephasingRate? qubit with
  | none => .ok []
  | some gamma => (Operator.embed .sigmaZ qubit d.numQubits).map fun op =>
      [op.scaleReal (Scalar.sqrt (gamma / Scalar.two))]

/-- Collapse operators qubit by qubit, relaxation before dephasing. Without noise there is none, for
a register of any size. -/
def collapseOperators (d : Decoherence α) : Result α (List (Operator α)) :=
  if d.isIdeal then .ok []
  else do
    let ops ← (List.range d.numQubits).mapM fun q => do
      return (← d.relaxation q) ++ (← d.dephasing q)
    return ops.flatten

end QubitPulse.Decoherence
