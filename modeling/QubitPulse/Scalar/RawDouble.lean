import QubitPulse.Scalar.Double

/-!
# Doubles by their bits

An undefined double carries a sign and a payload, which place it in the total order of doubles. They
belong to a given number only: arithmetic is that of `Float` and forgets them, but for the length of
a vector, which passes on the undefined coordinate.
-/
namespace QubitPulse

structure RawDouble where
  bits : UInt64
  deriving DecidableEq, Repr

namespace RawDouble

@[inline] def toFloat (x : RawDouble) : Float := Float.ofBits x.bits

@[inline] def ofFloat (x : Float) : RawDouble := ⟨x.toBits⟩

/-- The bit that is clear in an undefined double which may not be computed with. -/
def quietBit : UInt64 := 0x0008000000000000

def isNaN (x : RawDouble) : Bool := x.toFloat.isNaN

/-- Undefined, and not to be computed with. -/
def isSignaling (x : RawDouble) : Bool := x.isNaN && x.bits &&& quietBit == 0

/-- The undefined double that a computation passes on. -/
def quiet (x : RawDouble) : RawDouble := ⟨x.bits ||| quietBit⟩

/-- Length of a plane vector. The first undefined coordinate is the length, unless the other one is
infinite and both may be computed with. -/
def hypot (x y : RawDouble) : RawDouble :=
  let infinite := x.toFloat.isInf || y.toFloat.isInf
  if infinite && !x.isSignaling && !y.isSignaling then ofFloat (1.0 / 0.0)
  else if x.isNaN then x.quiet
  else if y.isNaN then y.quiet
  else ofFloat (Double.hypot x.toFloat y.toFloat)

@[inline] def map (f : Float → Float) (x : RawDouble) : RawDouble := ofFloat (f x.toFloat)

@[inline] def map₂ (f : Float → Float → Float) (x y : RawDouble) : RawDouble :=
  ofFloat (f x.toFloat y.toFloat)

instance : Scalar RawDouble where
  add := map₂ (· + ·)
  sub := map₂ (· - ·)
  mul := map₂ (· * ·)
  div := map₂ (· / ·)
  neg := map (- ·)
  zero := ofFloat 0.0
  one := ofFloat 1.0
  pi := ofFloat Scalar.pi
  ofNat n := ofFloat (Scalar.ofNat n)
  ofDecimal m k := ofFloat (Scalar.ofDecimal m k)
  abs := map Scalar.abs
  sqrt := map Scalar.sqrt
  sin := map Scalar.sin
  cos := map Scalar.cos
  hypot := hypot
  mulAdd x y z := ofFloat (Double.mulAdd x.toFloat y.toFloat z.toFloat)
  signum := map Double.signum
  lt x y := Scalar.lt x.toFloat y.toFloat
  le x y := Scalar.le x.toFloat y.toFloat
  eq x y := Scalar.eq x.toFloat y.toFloat
  totalLe x y := Binary.rank x.bits ≤ Binary.rank y.bits
  isFinite x := Scalar.isFinite x.toFloat
  isNaN := isNaN
  floorNat x := Double.floorNat x.toFloat
  ceilNat x := Double.ceilNat x.toFloat
  doublings x := Double.doublings x.toFloat
  twoPow n := ofFloat (Double.twoPow n)

end RawDouble
end QubitPulse
