import QubitPulse.Grid
import QubitPulse.Json.Record
import QubitPulse.Word

/-!
# Stored arrays

The form that arrays of one or two axes have in documents: a version, the lengths of the axes, and
the entries row by row.
-/
namespace QubitPulse.Json.Stored

variable {β : Type}

def version : Nat := 1

/-- Stored form of entries along axes of the given lengths. -/
def ofParts (encode : β → Value) (axes : List Nat) (entries : List β) : Value :=
  .record [("v", .nat version), ("dim", .list .nat axes), ("data", .list encode entries)]

def ofList (encode : β → Value) (xs : List β) : Value :=
  ofParts encode [xs.length] xs

def ofGrid (encode : β → Value) (g : Grid β) : Value :=
  ofParts encode [g.rows, g.cols] g.entries.toList

/-- The last of the members with a name, all of which have to be decoded. -/
def last? {γ : Type} (decode : Value → Option γ) (members : List (Text × Value)) (name : String) :
    Option γ :=
  ((members.filter (fun m => m.1 = some name)).mapM (fun m => decode m.2)).bind List.getLast?

/-- Only this version of the stored form is known. -/
def version? (v : Value) : Option Nat :=
  v.nat?.filter (· = version)

/-- The axes have to be addressable and to account for every entry. -/
def fits (axes : List Nat) (count : Nat) : Bool :=
  Word.addressable axes && axes.foldl (· * ·) 1 = count

def axes? (count : Nat) (v : Value) : Option (List Nat) :=
  (v.list? Value.nat?).filter (·.length = count)

/-- Axes and entries of a stored array. Here a repeated member replaces the one before it, and a
member of another name is refused. -/
def parts? (count : Nat) (decode : Value → Option β) (v : Value) : Option (List Nat × List β) := do
  let (dim, data) ← match v with
    | .object members =>
      if members.all (fun m => m.1 = some "v" || m.1 = some "dim" || m.1 = some "data") then do
        let _ ← last? version? members "v"
        let dim ← last? (axes? count) members "dim"
        let data ← last? (Value.list? decode) members "data"
        pure (dim, data)
      else none
    | .array [v, dim, data] => do
      let _ ← version? v
      let dim ← axes? count dim
      let data ← data.list? decode
      pure (dim, data)
    | _ => none
  if fits dim data.length then some (dim, data) else none

def list? (decode : Value → Option β) (v : Value) : Option (List β) :=
  (parts? 1 decode v).map Prod.snd

def grid? (decode : Value → Option β) (v : Value) : Option (Grid β) :=
  match parts? 2 decode v with
  | some ([m, n], data) => Grid.ofList? m n data
  | _ => none

end QubitPulse.Json.Stored
