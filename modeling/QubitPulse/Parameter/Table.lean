import QubitPulse.Parameter.Value
import QubitPulse.Error

/-!
# Tables of named parameters

The parameters of a device by name, in the order of the names. The order is that of code points,
which is also the order of the encoded bytes.
-/
namespace QubitPulse

structure ParameterTable (α : Type) where
  rows : List (String × List α)
  deriving DecidableEq, Repr

namespace ParameterTable

variable {α : Type}

def empty : ParameterTable α := ⟨[]⟩

/-- Puts a row in its place, or replaces the row of that name. -/
def insertRow (name : String) (values : List α) :
    List (String × List α) → List (String × List α)
  | [] => [(name, values)]
  | (k, v) :: rest =>
    if name < k then (name, values) :: (k, v) :: rest
    else if name = k then (name, values) :: rest
    else (k, v) :: insertRow name values rest

def insert (t : ParameterTable α) (name : String) (values : List α) : ParameterTable α :=
  ⟨insertRow name values t.rows⟩

def insertScaled [Scalar α] (t : ParameterTable α) (name : String) (value : ParamValue α)
    (n : Nat) : Result α (ParameterTable α) :=
  (value.toAngular n).map (t.insert name)

def find? (t : ParameterTable α) (name : String) : Option (List α) :=
  (t.rows.find? (fun r => r.1 = name)).map Prod.snd

def get (t : ParameterTable α) (name : String) : Result α (List α) :=
  match t.find? name with
  | some xs => .ok xs
  | none => .error (.missingParameter name)

def valueAt (t : ParameterTable α) (name : String) (i : Nat) : Result α α := do
  let xs ← t.get name
  match xs[i]? with
  | some x => .ok x
  | none => .error (.qubitOutOfRange i (xs.length - 1))

def contains (t : ParameterTable α) (name : String) : Bool := (t.find? name).isSome

def names (t : ParameterTable α) : List String := t.rows.map Prod.fst

def size (t : ParameterTable α) : Nat := t.rows.length

def isEmpty (t : ParameterTable α) : Bool := t.rows.isEmpty

variable [ScalarText α]

def describe (t : ParameterTable α) : String :=
  "ParameterSet(" ++
    ", ".intercalate (t.rows.map fun r => r.1 ++ "=" ++ ParamValue.listing r.2) ++ ")"

def toJson (t : ParameterTable α) : Json.Value :=
  .record [("values", .record (t.rows.map fun r => (r.1, .list Json.Value.scalar r.2)))]

/-- Rows of an object; the last of two members with one name counts. -/
def ofMembers? : List (Json.Text × Json.Value) → ParameterTable α → Option (ParameterTable α)
  | [], t => some t
  | (key, v) :: ms, t => do
    let key ← key
    let xs ← v.list? Json.Value.scalar?
    ofMembers? ms (t.insert key xs)

def ofJson? (v : Json.Value) : Option (ParameterTable α) :=
  match v.fields? ["values"] false with
  | some [some (.object members)] => ofMembers? members empty
  | _ => none

end ParameterTable
end QubitPulse
