import QubitPulse.Circuit.Basic
import QubitPulse.Update

/-!
# Circuits in place

The operations on a circuit as its user calls them: each works on the circuit that the user holds. Of a
list of gates that is refused, the gates before the refused one stay.
-/
namespace QubitPulse.Circuit.InPlace

variable {α : Type}

def clear : Update (Circuit α) α Unit := modify Circuit.clear

def setName (name : String) : Update (Circuit α) α Unit := modify fun c => c.setName name

variable [Scalar α]

/-- Appends a gate that passes the check of the register. -/
def add (g : Gate α) : Update (Circuit α) α Unit := do
  let c ← get
  Update.attempt (checkGate c.numQubits g)
  modify fun c => { c with gates := c.gates ++ [g] }

/-- Appends gates one after the other. -/
def addAll : List (Gate α) → Update (Circuit α) α Unit
  | [] => pure ()
  | g :: gs => do
    add g
    addAll gs

end QubitPulse.Circuit.InPlace
