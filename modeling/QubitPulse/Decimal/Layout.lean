import QubitPulse.Decimal.Numeral
import QubitPulse.Decimal.Shortest

/-!
# Layouts of decimal numbers

A layout says how the digits of a number are set: with a fixed number of places, or as the
shortest decimal, positional or with a power of ten.
-/
namespace QubitPulse.Decimal

/-- How shortest decimals are set. -/
structure Layout where
  /-- Powers of ten of the leading digit that are written positionally, the upper bound excluded;
  without bounds every number is. -/
  positional : Option (Int × Int)
  /-- Whether a whole number in positional form ends in a point and a zero. -/
  pointZero : Bool
  /-- Whether a positive power of ten shows its sign. -/
  showPlus : Bool
  /-- Which of two equally near and equally short decimals is taken. -/
  tie : Tie

/-- Digits without a power of ten, the point set `exponent` places from their right end. -/
def setPositional (negative pointZero : Bool) (ds : List Digit) (exponent : Int) : Numeral :=
  if 0 ≤ exponent then
    ⟨negative, ds ++ Digit.zeros exponent.toNat, if pointZero then [Digit.zero] else [], none⟩
  else
    let places := (-exponent).toNat
    if places < ds.length then
      ⟨negative, ds.take (ds.length - places), ds.drop (ds.length - places), none⟩
    else ⟨negative, [Digit.zero], Digit.zeros (places - ds.length) ++ ds, none⟩

/-- One digit before the point and the power of ten of that digit. -/
def setScientific (negative : Bool) (ds : List Digit) (leading : Int) : Numeral :=
  ⟨negative, ds.take 1, ds.drop 1, some ⟨leading < 0, Digit.ofNat leading.natAbs⟩⟩

def Layout.numeral (l : Layout) (b : Binary) : Numeral :=
  if b.significand = 0 then setPositional b.negative l.pointZero [Digit.zero] 0
  else
    let d := shortest l.tie b
    let ds := Digit.ofNat d.digits
    let leading := d.exponent + (ds.length - 1 : Nat)
    match l.positional with
    | none => setPositional b.negative l.pointZero ds d.exponent
    | some (low, high) =>
      if low ≤ leading && leading < high then
        setPositional b.negative l.pointZero ds d.exponent
      else setScientific b.negative ds leading

/-- Sets a double with a fixed number of places. The exact value is rounded once, a half to the even
neighbour, and a number that rounds to zero keeps its sign. -/
def fixed (places : Nat) (b : Binary) : Numeral :=
  let (num, den) := b.fraction
  let unit := Nat.pow 10 places
  let n := roundDiv .toEven (num * unit) den
  let ds := Digit.ofNat (n % unit)
  ⟨b.negative, Digit.ofNat (n / unit), Digit.zeros (places - ds.length) ++ ds, none⟩

end QubitPulse.Decimal
