import QubitPulse.Scalar
import QubitPulse.Json.Record
import QubitPulse.Storage

/-!
# Parameter values

A parameter is given either once for all qubits or as an explicit list. Frequencies are given in
cycles; angular frequencies are their multiples by 2π.
-/
namespace QubitPulse

inductive ParamValue (α : Type) where
  | scalar (value : α)
  | perQubit (values : List α)
  deriving DecidableEq, Repr

namespace ParamValue

variable {α : Type}

/-- The values for a number of qubits, if there is room for them. An explicit list stays as it is,
whatever its length. -/
def expand (n : Nat) : ParamValue α → Result α (List α)
  | scalar x => do
    Storage.reserve 1 [n]
    return List.replicate n x
  | perQubit xs => .ok xs

def explicitLength? : ParamValue α → Option Nat
  | scalar _ => none
  | perQubit xs => some xs.length

/-- A full turn, the factor from cycles to angles. -/
@[inline] def fullTurn [Scalar α] : α := Scalar.two * Scalar.pi

def toAngular [Scalar α] (n : Nat) (v : ParamValue α) : Result α (List α) :=
  (v.expand n).map fun xs => xs.map (· * fullTurn)

variable [ScalarText α]

def listing (xs : List α) : String :=
  bracketed (xs.map ScalarText.detailed)

def describe : ParamValue α → String
  | scalar x => "Scalar(" ++ ScalarText.detailed x ++ ")"
  | perQubit xs => "PerQubit(" ++ listing xs ++ ")"

/-- An optional value, marked as present or absent. -/
def describeOption {β : Type} (text : β → String) : Option β → String
  | none => "None"
  | some x => "Some(" ++ text x ++ ")"

def toJson : ParamValue α → Json.Value
  | scalar x => Json.Value.scalar x
  | perQubit xs => .list Json.Value.scalar xs

/-- The form decides: a number is one value, an array of numbers a list. -/
def ofJson? (v : Json.Value) : Option (ParamValue α) :=
  match Json.Value.scalar? v with
  | some x => some (scalar x)
  | none => (v.list? Json.Value.scalar?).map perQubit

end ParamValue
end QubitPulse
