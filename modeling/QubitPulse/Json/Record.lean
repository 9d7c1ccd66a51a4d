import QubitPulse.Json.Value
import QubitPulse.Decimal.Text

/-!
# Records in documents

A record is an object with named members, or an array of its fields in their order. Members of other
names are passed over, and a field given twice makes the record ill-formed.
-/
namespace QubitPulse.Json.Value

/-- Whether a key is met more than once among the members. -/
def repeats (members : List (Text × Value)) (name : String) : Bool :=
  1 < (members.filter (fun m => m.1 = some name)).length

def member? (members : List (Text × Value)) (name : String) : Option Value :=
  (members.find? (fun m => m.1 = some name)).map Prod.snd

/-- The fields of a record, each with its value if it is given. An array gives all fields, or, where
every field has a default, a first part of them. -/
def fields? (names : List String) (allDefault : Bool) : Value → Option (List (Option Value))
  | .object members =>
    if members.any (fun m => m.1.isNone) || names.any (repeats members) then none
    else some (names.map (member? members))
  | .array items =>
    if items.length = names.length || (allDefault && items.length < names.length) then
      some (items.map some ++ List.replicate (names.length - items.length) none)
    else none
  | _ => none

def required {β : Type} (decode : Value → Option β) (v : Option Value) : Option β :=
  v.bind decode

def withDefault {β : Type} (default : β) (decode : Value → Option β) : Option Value → Option β
  | none => some default
  | some v => decode v

def nullOr {β : Type} (decode : Value → Option β) : Value → Option (Option β)
  | .null => some none
  | v => (decode v).map some

/-- A field that may be left out or `null`. -/
def optional {β : Type} (decode : Value → Option β) : Option Value → Option (Option β) :=
  withDefault none (nullOr decode)

variable {α : Type} [ScalarText α]

/-- A number; what is no finite number is `null`. -/
def scalar (x : α) : Value :=
  match ScalarText.numeral? x with
  | some n => .number n
  | none => .null

def scalar? : Value → Option α
  | .number n => ScalarText.ofNumeral? n
  | _ => none

end QubitPulse.Json.Value
