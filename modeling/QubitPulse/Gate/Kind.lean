import QubitPulse.Json.Record

/-!
# Kinds of gates

The closed vocabulary of gates, with the number of qubits each acts on and the names it goes by.
-/
namespace QubitPulse

inductive GateKind where
  | rx
  | ry
  | rz
  | x
  | y
  | z
  | h
  | cnot
  | cz
  | swap
  | iSwap
  | sqrtISwap
  | globalPhase
  deriving DecidableEq, Repr

namespace GateKind

/-- Every kind, in the order in which registries list them. -/
def all : List GateKind :=
  [rx, ry, rz, x, y, z, h, cnot, cz, swap, iSwap, sqrtISwap, globalPhase]

def name : GateKind → String
  | rx => "RX"
  | ry => "RY"
  | rz => "RZ"
  | x => "X"
  | y => "Y"
  | z => "Z"
  | h => "SNOT"
  | cnot => "CNOT"
  | cz => "CSIGN"
  | swap => "SWAP"
  | iSwap => "ISWAP"
  | sqrtISwap => "SQRTISWAP"
  | globalPhase => "GLOBALPHASE"

def aliases : GateKind → List String
  | h => ["H", "HADAMARD"]
  | cnot => ["CX"]
  | cz => ["CZ"]
  | _ => []

/-- Capital form of a letter, where it is one of the capitals A to Z. Besides the small letters
these are the dotless i and the long s; any other letter has no such capital. -/
def capital (c : Char) : Char :=
  if c = 'ı' then 'I' else if c = 'ſ' then 'S' else c.toUpper

/-- The kind of a name, in capital or small letters. -/
def parse? (s : String) : Option GateKind :=
  let s := s.map capital
  all.find? fun k => k.name = s || k.aliases.contains s

def takesAngle : GateKind → Bool
  | rx | ry | rz | globalPhase => true
  | _ => false

def numTargets : GateKind → Nat
  | globalPhase => 0
  | swap | iSwap | sqrtISwap => 2
  | _ => 1

def numControls : GateKind → Nat
  | cnot | cz => 1
  | _ => 0

def label : GateKind → String
  | rx => "Rx"
  | ry => "Ry"
  | rz => "Rz"
  | x => "X"
  | y => "Y"
  | z => "Z"
  | h => "H"
  | cnot => "Cnot"
  | cz => "Cz"
  | swap => "Swap"
  | iSwap => "ISwap"
  | sqrtISwap => "SqrtISwap"
  | globalPhase => "GlobalPhase"

def ofLabel? (s : String) : Option GateKind :=
  all.find? (·.label = s)

def toJson (k : GateKind) : Json.Value := .text k.label

def ofJson? (v : Json.Value) : Option GateKind :=
  v.name?.bind ofLabel?

end GateKind
end QubitPulse
