import QubitPulse.Scalar.Binary

/-!
# Rounding of exact values

With significands of any size, sums and products of binary forms are exact. An operation on doubles
is the exact one, followed by a single rounding to the nearest double.
-/
namespace QubitPulse.Binary

/-- The significand with its sign, in units of a lower exponent. -/
def units (b : Binary) (exponent : Int) : Int :=
  let m := b.significand * Nat.pow 2 (b.exponent - exponent).toNat
  if b.negative then -m else m

def mul (a b : Binary) : Binary :=
  ⟨a.negative != b.negative, a.significand * b.significand, a.exponent + b.exponent⟩

/-- Exact sum. A sum that cancels is positive. -/
def add (a b : Binary) : Binary :=
  let e := min a.exponent b.exponent
  let s := a.units e + b.units e
  ⟨s < 0, s.natAbs, e⟩

/-- `m / 2 ^ n` to the nearest natural number, and to the even one of two that are equally near. -/
def shiftNearest (m n : Nat) : Nat :=
  let unit := Nat.pow 2 n
  let q := m / unit
  let r := m % unit
  if 2 * r < unit || (2 * r = unit && q % 2 = 0) then q else q + 1

/-- Exponent of the last place of the double next to a value. -/
def lastPlace (b : Binary) : Int :=
  if b.significand = 0 then leastExponent
  else max (b.exponent + Nat.log2 b.significand - 52) leastExponent

/-- The significand in units of the last place. It may carry into the next binade. -/
def roundedSignificand (b : Binary) : Nat :=
  let e := b.lastPlace
  if e ≤ b.exponent then b.significand * Nat.pow 2 (b.exponent - e).toNat
  else shiftNearest b.significand (e - b.exponent).toNat

/-- Bits of the infinities, up to the sign. -/
def infiniteMagnitude : Nat := 2047 * hiddenBit

/-- Bits of the nearest double. In steps of the last place the bits count on from binade to binade,
so a carry needs no care; beyond the largest double they stop at infinity. -/
def nearestBits (b : Binary) : UInt64 :=
  let steps := (b.lastPlace - leastExponent).toNat * hiddenBit + b.roundedSignificand
  let sign := if b.negative then Nat.pow 2 63 else 0
  UInt64.ofNat (sign + min steps infiniteMagnitude)

end QubitPulse.Binary
