import QubitPulse.Decimal.Numeral

/-!
# Reading numerals as doubles

The digits of a numeral are gathered into one 64-bit significand, digits that no longer fit are
dropped, and the significand is brought to its power of ten by multiplication or division with
powers that are doubles themselves. Up to 15 digits and powers within `10 ^ 22` this is the double
nearest to the numeral; beyond, every step may round.
-/
namespace QubitPulse.Decimal

/-- Digits gathered so far, the power of ten of the last one, and whether later digits still fit. -/
structure Gathered where
  significand : Nat
  exponent : Int
  isOpen : Bool

def mostSignificand : Nat := Nat.pow 2 64 - 1

/-- Once a digit before the point does not fit, it and all after it only count as places. -/
def Gathered.addWhole (g : Gathered) (d : Digit) : Gathered :=
  let n := 10 * g.significand + d.val
  if g.isOpen && n ≤ mostSignificand then { g with significand := n }
  else { g with exponent := g.exponent + 1, isOpen := false }

/-- Once a digit after the point does not fit, it and all after it are dropped. -/
def Gathered.addFraction (g : Gathered) (d : Digit) : Gathered :=
  let n := 10 * g.significand + d.val
  if g.isOpen && n ≤ mostSignificand then { g with significand := n, exponent := g.exponent - 1 }
  else { g with isOpen := false }

/-- The point starts a new run of digits: the first of them may fit where the last did not. -/
def gather (n : Numeral) : Gathered :=
  let g := n.whole.foldl Gathered.addWhole ⟨0, 0, true⟩
  n.fraction.foldl Gathered.addFraction { g with isOpen := true }

/-- Largest power of ten that is a double. -/
def widestStep : Nat := 308

def powerOfTen (k : Nat) : Float :=
  OfScientific.ofScientific 1 false k

/-- Brings a significand to its power of ten, in steps that are doubles. Too large a result is no
double; too small a one is zero. -/
def scale (x : Float) (exponent : Int) : Option Float :=
  if exponent.natAbs ≤ widestStep then
    if 0 ≤ exponent then
      let y := x * powerOfTen exponent.natAbs
      if y.isInf then none else some y
    else some (x / powerOfTen exponent.natAbs)
  else if x == 0.0 then some x
  else if 0 ≤ exponent then none
  else scale (x / powerOfTen widestStep) (exponent + widestStep)
termination_by exponent.natAbs
decreasing_by simp [widestStep] at *; omega

/-- The double that a numeral is read as; none when its magnitude is too large. -/
def toDouble? (n : Numeral) : Option Float :=
  let g := gather n
  let power := match n.exponent with
    | none => 0
    | some e => e.toInt
  (scale (UInt64.ofNat g.significand).toFloat (g.exponent + power)).map fun x =>
    if n.negative then -x else x

end QubitPulse.Decimal
