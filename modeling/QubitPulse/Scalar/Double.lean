import QubitPulse.Scalar
import QubitPulse.Scalar.Binary
import QubitPulse.Scalar.Fused
import QubitPulse.Scalar.Length

/-!
# Doubles as scalars

The scalars that the library runs on are IEEE doubles. Whole-number conversions stop at the ends
of a 64-bit word, and a count of doublings stops at the largest 32-bit integer.
-/
namespace QubitPulse.Double

/-- Sign bit of a double; it is set for a negative zero. -/
@[inline] def isNegative (x : Float) : Bool :=
  x.toBits >>> 63 == 1

/-- One with the sign bit of the argument. -/
def signum (x : Float) : Float :=
  if x.isNaN then x else if isNegative x then -1.0 else 1.0

/-- Whole part, with negative numbers at zero and large ones at the largest word. -/
def floorNat (x : Float) : Nat :=
  x.toUInt64.toNat

/-- From `2 ^ 53` on every double is whole, so only smaller ones can have a part to round up. -/
def ceilNat (x : Float) : Nat :=
  let n := x.toUInt64
  if x < 9007199254740992.0 && n.toFloat < x then n.toNat + 1 else n.toNat

def mostDoublings : Nat := Nat.pow 2 31 - 1

/-- How many steps above `2 ^ k` the binary logarithm of a double still rounds to `k`. A step changes
it by `2 ^ -52 / log 2`, and half a last place of `k` is `2 ^ (Nat.log2 k - 53)`. -/
def logarithmSlack (k : Nat) : Nat :=
  Nat.pow 2 (Nat.log2 k) * 6931471805599453 / 20000000000000000

/-- The binary logarithm, rounded to a double and then rounded up. -/
def doublings (x : Float) : Nat :=
  if x.isNaN || x < 1.0 then 0
  else match Binary.ofBits x.toBits with
  | none => mostDoublings
  | some b =>
    let k := (b.exponent + 52).toNat
    if b.significand - Binary.hiddenBit ≤ logarithmSlack k then k else k + 1

/-- Powers of two from `2 ^ 1024` on are beyond the range and infinite. -/
def twoPow (n : Nat) : Float :=
  if n < 1024 then Float.ofBits ((UInt64.ofNat (n + 1023)) <<< 52) else 1.0 / 0.0

instance : Scalar Float where
  zero := 0.0
  one := 1.0
  pi := 3.141592653589793
  ofNat := Float.ofNat
  ofDecimal m k := OfScientific.ofScientific m true k
  abs := Float.abs
  sqrt := Float.sqrt
  sin := Float.sin
  cos := Float.cos
  hypot := hypot
  mulAdd := mulAdd
  signum := signum
  lt x y := x < y
  le x y := x ≤ y
  eq x y := x == y
  totalLe x y := Binary.rank x.toBits ≤ Binary.rank y.toBits
  isFinite := Float.isFinite
  isNaN := Float.isNaN
  floorNat := floorNat
  ceilNat := ceilNat
  doublings := doublings
  twoPow := twoPow

end QubitPulse.Double
