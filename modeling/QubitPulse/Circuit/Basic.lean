import QubitPulse.Gate.Basic
import QubitPulse.Json.Reader
import QubitPulse.Json.Writer

/-!
# Circuits

A circuit is a list of gates over a fixed number of qubits. Every gate that enters through
`Circuit.add` is well-formed and acts on qubits of the register.
-/
namespace QubitPulse

structure Circuit (α : Type) where
  numQubits : Nat
  gates : List (Gate α)
  name : Option String
  deriving DecidableEq, Repr

namespace Circuit

variable {α : Type}

def new (numQubits : Nat) : Circuit α := ⟨numQubits, [], none⟩

def withName (numQubits : Nat) (name : String) : Circuit α := ⟨numQubits, [], some name⟩

def setName (c : Circuit α) (name : String) : Circuit α := { c with name := some name }

def clear (c : Circuit α) : Circuit α := { c with gates := [] }

def gateCount (c : Circuit α) : Nat := c.gates.length

def isEmpty (c : Circuit α) : Bool := c.gates.isEmpty

def countKind (c : Circuit α) (kind : GateKind) : Nat :=
  (c.gates.filter (·.kind = kind)).length

section Checks

variable [Scalar α]

/-- A well-formed gate on qubits of a register. -/
def checkGate (numQubits : Nat) (g : Gate α) : Result α Unit := do
  g.validate
  match g.qubits.find? (numQubits ≤ ·) with
  | some q => .error (.gateQubitMismatch q numQubits)
  | none => .ok ()

def validate (c : Circuit α) : Result α Unit :=
  c.gates.forM (checkGate c.numQubits)

def add (c : Circuit α) (g : Gate α) : Result α (Circuit α) :=
  (checkGate c.numQubits g).map fun _ => { c with gates := c.gates ++ [g] }

/-- Gates of a list up to the first that fails the check, and its error. -/
def accepted (numQubits : Nat) : List (Gate α) → List (Gate α) × Result α Unit
  | [] => ([], .ok ())
  | g :: gs => match checkGate numQubits g with
    | .error e => ([], .error e)
    | .ok _ => let (taken, r) := accepted numQubits gs; (g :: taken, r)

/-- Appends gates until one fails the check. The gates before it stay. -/
def addAll (c : Circuit α) (gs : List (Gate α)) : Circuit α × Result α Unit :=
  let (taken, r) := accepted c.numQubits gs
  ({ c with gates := c.gates ++ taken }, r)

def ofGates (numQubits : Nat) (gs : List (Gate α)) : Result α (Circuit α) :=
  let (c, r) := (new numQubits).addAll gs
  r.map fun _ => c

end Checks

section Text

variable [Scalar α] [ScalarText α]

def describe (c : Circuit α) : String :=
  (match c.name with
    | some name => s!"Circuit '{name}' ({c.numQubits} qubits):\n"
    | none => s!"Circuit ({c.numQubits} qubits):\n") ++
  String.join (c.gates.map fun g => "  " ++ g.describe ++ "\n")

end Text

section Documents

variable [ScalarText α]

def toJson (c : Circuit α) : Json.Value :=
  .record [("num_qubits", .nat c.numQubits), ("gates", .list Gate.toJson c.gates),
    ("name", .orNull .text c.name)]

def ofJson? (v : Json.Value) : Option (Circuit α) := do
  let [numQubits, gates, name] ← v.fields? ["num_qubits", "gates", "name"] false | none
  let numQubits ← Json.Value.required Json.Value.nat? numQubits
  let gates ← Json.Value.required (Json.Value.list? Gate.ofJson?) gates
  let name ← Json.Value.optional Json.Value.text? name
  return ⟨numQubits, gates, name⟩

def toDocument (c : Circuit α) : String := c.toJson.indented

def ofDocument [Scalar α] (document : String) : Result α (Circuit α) :=
  match (Json.Value.parse? document).bind ofJson? with
  | none => .error (.jsonError "circuit")
  | some c => c.validate.map fun _ => c

end Documents
end Circuit
end QubitPulse
