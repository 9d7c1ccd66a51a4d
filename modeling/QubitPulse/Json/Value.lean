import QubitPulse.Decimal.Numeral

/-!
# Documents

The values that documents are made of. Members of an object keep their order and may repeat, and a
number keeps the form it is written in, since what repeats or how a number is written can decide
whether a document is accepted.
-/
namespace QubitPulse.Json

/-- The characters of a string, or nothing when an escape in it names half of a surrogate pair: such
a string has its place in the grammar but is no text. -/
abbrev Text := Option String

inductive Value where
  | null
  | bool (b : Bool)
  | number (n : Numeral)
  | string (s : Text)
  | array (items : List Value)
  | object (members : List (Text × Value))
  deriving Repr, Inhabited

namespace Value

def text (s : String) : Value := .string (some s)

def nat (n : Nat) : Value := .number (.ofNat n)

def record (members : List (String × Value)) : Value :=
  .object (members.map fun m => (some m.1, m.2))

def orNull {β : Type} (encode : β → Value) : Option β → Value
  | none => .null
  | some x => encode x

def list {β : Type} (encode : β → Value) (xs : List β) : Value :=
  .array (xs.map encode)

def bool? : Value → Option Bool
  | .bool b => some b
  | _ => none

def text? : Value → Option String
  | .string s => s
  | _ => none

/-- Machine words are the natural numbers below this bound. -/
def wordBound : Nat := Nat.pow 2 64

def nat? : Value → Option Nat
  | .number n => n.toNat?.filter (· < wordBound)
  | _ => none

/-- A list whose every member can be decoded. -/
def list? {β : Type} (decode : Value → Option β) : Value → Option (List β)
  | .array items => items.mapM decode
  | _ => none

/-- The one member of an object that holds no more. -/
def soleMember? : Value → Option (String × Value)
  | .object [(some key, v)] => some (key, v)
  | _ => none

/-- A name that stands for itself: its string, or the object whose one member is the name with
`null`. -/
def name? : Value → Option String
  | .string s => s
  | v => match v.soleMember? with
    | some (key, .null) => some key
    | _ => none

end Value
end QubitPulse.Json
