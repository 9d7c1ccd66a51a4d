/-!
# Binary form of a double

A finite double is `± m * 2 ^ e` with a natural `m`. The decimal texts, the count of doublings and
the conversions to whole numbers are computed from this form, in exact arithmetic.
-/
namespace QubitPulse

/-- Sign, significand and binary exponent of a finite double. -/
structure Binary where
  negative : Bool
  significand : Nat
  exponent : Int
  deriving DecidableEq, Repr

namespace Binary

/-- The leading one of a normal significand, which the 64 bits leave out. -/
def hiddenBit : Nat := Nat.pow 2 52

/-- The exponent shared by zero, the subnormals and the least normal numbers. -/
def leastExponent : Int := -1074

def ofBits (bits : UInt64) : Option Binary :=
  let n := bits.toNat
  let negative := n / Nat.pow 2 63 = 1
  let fraction := n % hiddenBit
  let biased := n / hiddenBit % Nat.pow 2 11
  if biased = 2047 then none
  else if biased = 0 then some ⟨negative, fraction, leastExponent⟩
  else some ⟨negative, hiddenBit + fraction, leastExponent + (biased - 1 : Nat)⟩

/-- Place of the 64 bits in the total order of doubles: negative ones run backwards below the
positive ones, and an undefined one lies beyond the infinity of its sign. -/
def rank (bits : UInt64) : Nat :=
  let n := bits.toNat
  let half := Nat.pow 2 63
  if n < half then half + n else 2 * half - 1 - n

/-- The double of the same value is the first of its binade: its neighbour below is half as far
away as its neighbour above. -/
def opensBinade (b : Binary) : Bool :=
  b.significand = hiddenBit && b.exponent ≠ leastExponent

def fraction (b : Binary) : Nat × Nat :=
  (b.significand * Nat.pow 2 b.exponent.toNat, Nat.pow 2 (-b.exponent).toNat)

end Binary
end QubitPulse
