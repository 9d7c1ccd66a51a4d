import QubitPulse.Operator.Basic
import QubitPulse.Error

/-!
# Embedding into a register

The operator that acts by given two by two matrices on some qubits and leaves the others alone is
the tensor product of one factor a qubit, qubit 0 leftmost.
-/
namespace QubitPulse.Operator

variable {α : Type} [Scalar α]

@[inline] def kronEntry (a b : Operator α) (i j : Nat) : Amplitude α :=
  a.entry (i / b.rows) (j / b.cols) * b.entry (i % b.rows) (j % b.cols)

@[specialize] def kron (a b : Operator α) : Operator α :=
  Grid.ofFn (a.rows * b.rows) (a.cols * b.cols) (kronEntry a b)

/-- Why a factor cannot be placed on a register, if it cannot. -/
def placementError? (numQubits : Nat) (factor : Nat × Operator α) : Option (Error α) :=
  let (qubit, op) := factor
  if numQubits ≤ qubit then some (.qubitOutOfRange qubit (numQubits - 1))
  else if op.rows ≠ 2 || op.cols ≠ 2 then some (.dimensionMismatch 2 op.rows)
  else none

/-- The first factor listed for a qubit, or the identity. -/
def factorAt (factors : List (Nat × Operator α)) (qubit : Nat) : Operator α :=
  match factors.find? (fun f => f.1 = qubit) with
  | some (_, op) => op
  | none => identity 2

/-- Tensor product of the factors of the first qubits. -/
@[specialize] def tensor (factors : List (Nat × Operator α)) : Nat → Operator α
  | 0 => identity 1
  | q + 1 => kron (tensor factors q) (factorAt factors q)

/-- Places single-qubit factors on a register. -/
@[specialize] def embedFactors (factors : List (Nat × Operator α)) (numQubits : Nat) :
    Result α (Operator α) :=
  match factors.findSome? (placementError? numQubits) with
  | some e => .error e
  | none => .ok (tensor factors numQubits)

/-- Places one single-qubit operator on a register. -/
@[specialize] def embed (op : Operator α) (target numQubits : Nat) : Result α (Operator α) :=
  embedFactors [(target, op)] numQubits

end QubitPulse.Operator
