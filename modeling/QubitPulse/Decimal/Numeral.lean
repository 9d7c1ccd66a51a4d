/-!
# Decimal numerals

A numeral is a number as it is written: a sign, digits before and after the point, and a power of
ten. Reading and writing numbers both pass through this form, so that the choice of digits and the
choice of layout stay apart.
-/
namespace QubitPulse

abbrev Digit := Fin 10

namespace Digit

def zero : Digit := Fin.mk 0 (Nat.succ_pos 9)

def toChar (d : Digit) : Char :=
  Char.ofNat (48 + d.val)

/-- The digit that a character shows. It stays folded, so that what is read by its digits can be opened
step by step. -/
@[irreducible] def ofChar? (c : Char) : Option Digit :=
  let k := c.toNat - 48
  if h : k < 10 then if 48 ≤ c.toNat then some ⟨k, h⟩ else none else none

/-- Value of a digit string, most significant digit first. -/
def value (ds : List Digit) : Nat :=
  ds.foldl (fun n d => 10 * n + d.val) 0

/-- Digits of a number above those already collected. -/
def collect (n : Nat) (ds : List Digit) : List Digit :=
  if n < 10 then Fin.ofNat 10 n :: ds else collect (n / 10) (Fin.ofNat 10 n :: ds)
termination_by n

/-- Decimal digits of a natural number; zero has one digit. -/
def ofNat (n : Nat) : List Digit :=
  collect n []

def zeros (n : Nat) : List Digit :=
  List.replicate n zero

end Digit

structure Exponent where
  negative : Bool
  digits : List Digit
  deriving DecidableEq, Repr

/-- A number as written. No digit after the point means that no point is written. -/
structure Numeral where
  negative : Bool
  whole : List Digit
  fraction : List Digit
  exponent : Option Exponent
  deriving DecidableEq, Repr

namespace Exponent

def toInt (e : Exponent) : Int :=
  if e.negative then -(Digit.value e.digits : Int) else Digit.value e.digits

/-- Characters of the power of ten. A positive one shows its sign only on request. -/
def chars (showPlus : Bool) (e : Exponent) : List Char :=
  'e' :: ((if e.negative then ['-'] else if showPlus then ['+'] else []) ++
    e.digits.map Digit.toChar)

end Exponent

namespace Numeral

def ofNat (n : Nat) : Numeral :=
  ⟨false, Digit.ofNat n, [], none⟩

/-- The natural number that a bare digit string names. A sign, a point or a power of ten makes it a
number of another kind, even where the value is whole. -/
def toNat? (n : Numeral) : Option Nat :=
  match n with
  | ⟨false, ds, [], none⟩ => some (Digit.value ds)
  | _ => none

/-- Characters of a numeral, from the sign to the power of ten. -/
def chars (showPlus : Bool) (n : Numeral) : List Char :=
  (if n.negative then ['-'] else []) ++ n.whole.map Digit.toChar ++
    (if n.fraction.isEmpty then [] else '.' :: n.fraction.map Digit.toChar) ++
    (match n.exponent with
    | none => []
    | some e => e.chars showPlus)

def text (showPlus : Bool) (n : Numeral) : String :=
  String.ofList (n.chars showPlus)

end Numeral
end QubitPulse
