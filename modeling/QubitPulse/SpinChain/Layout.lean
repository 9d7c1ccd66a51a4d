import QubitPulse.Storage

/-!
# Layouts of spin chains

Qubits are coupled to their neighbours. In a ring the last qubit is a neighbour of the first.
-/
namespace QubitPulse

inductive ChainLayout where
  | linear
  | circular
  deriving DecidableEq, Repr

namespace ChainLayout

instance : Inhabited ChainLayout := ⟨.linear⟩

def name : ChainLayout → String
  | linear => "linear"
  | circular => "circular"

def toJson (l : ChainLayout) : Json.Value := .text l.name

/-- The pair that closes a ring. Two qubits are coupled already. -/
def closingPair (l : ChainLayout) (numQubits : Nat) : List (Nat × Nat) :=
  match l with
  | linear => []
  | circular => if 2 < numQubits then [(numQubits - 1, 0)] else []

/-- Coupled pairs in the order in which their exchange controls are numbered. -/
def couplings (l : ChainLayout) (numQubits : Nat) : List (Nat × Nat) :=
  (List.range (numQubits - 1)).map (fun i => (i, i + 1)) ++ l.closingPair numQubits

/-- Coupled pairs of a register of any size, if there is room for them. A pair takes two words. -/
def couplingsStored {α : Type} (l : ChainLayout) (numQubits : Nat) :
    Result α (List (Nat × Nat)) := do
  Storage.reserve 2 [numQubits - 1]
  return l.couplings numQubits

end ChainLayout
end QubitPulse
