import QubitPulse.Circuit.Basic

/-!
# Building circuits

Requests are taken one after the other; a gate that fails the check of the register is left out.
-/
namespace QubitPulse.Circuit

variable {α : Type}

inductive Request (α : Type) where
  | gate (g : Gate α)
  /-- A Hadamard gate on every qubit. -/
  | hLayer
  /-- An exchange gate on every pair of neighbours, in order. -/
  | iSwapChain
  deriving DecidableEq, Repr

def Request.gates (numQubits : Nat) : Request α → List (Gate α)
  | .gate g => [g]
  | .hLayer => (List.range numQubits).map .h
  | .iSwapChain => (List.range (numQubits - 1)).map fun q => .iSwap q (q + 1)

variable [Scalar α]

/-- Appends a gate, or leaves the circuit as it is. -/
def offer (c : Circuit α) (g : Gate α) : Circuit α :=
  match c.add g with
  | .ok c => c
  | .error _ => c

/-- The circuit of the acceptable gates among those requested. -/
def build (numQubits : Nat) (name : Option String) (requests : List (Request α)) : Circuit α :=
  (requests.flatMap (Request.gates numQubits)).foldl offer ⟨numQubits, [], name⟩

end QubitPulse.Circuit
