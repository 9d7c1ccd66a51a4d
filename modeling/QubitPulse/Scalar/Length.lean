/-!
# Length of a plane vector

The square root of the sum of two squares, with the rounding error of the root corrected once.
Coordinates whose squares leave the doubles are scaled by a power of two, which is exact.
-/
namespace QubitPulse.Double

/-- Scale of coordinates with extreme squares, `2 ^ -600`. -/
@[inline] def lengthScale : Float := Float.ofBits 0x1a70000000000000

/-- Quotient of coordinates at which the smaller one stops to count, `2 ^ -54`. -/
@[inline] def lengthEpsilon : Float := Float.ofBits 0x3c90000000000000

/-- Coordinates above this bound are scaled down, `2 ^ 511`. -/
@[inline] def largeCoordinate : Float := Float.ofBits 0x5fe0000000000000

/-- Coordinates below this bound are scaled up, `2 ^ -459`. -/
@[inline] def smallCoordinate : Float := Float.ofBits 0x2340000000000000

/-- Length for coordinates `x ≥ y ≥ 0` with moderate squares: the rounded root `h`, less the error
`(h ^ 2 - x ^ 2 - y ^ 2) / (2 * h)`. The error of the squares is computed from the distance between
the root and the nearer coordinate. -/
def correctedLength (x y : Float) : Float :=
  let h := (x * x + y * y).sqrt
  let excess :=
    if h ≤ 2.0 * y then
      let d := h - y
      x * (2.0 * d - x) + (d - 2.0 * (x - y)) * d
    else
      let d := h - x
      2.0 * d * (x - 2.0 * y) + ((4.0 * d - y) * y + d * d)
  h - excess / (2.0 * h)

/-- Length for finite coordinates `x ≥ y ≥ 0`. -/
def orderedLength (x y : Float) : Float :=
  if x > largeCoordinate then
    if y ≤ x * lengthEpsilon then x + y
    else correctedLength (x * lengthScale) (y * lengthScale) / lengthScale
  else if y < smallCoordinate then
    if x ≥ y / lengthEpsilon then x + y
    else correctedLength (x / lengthScale) (y / lengthScale) * lengthScale
  else if y ≤ x * lengthEpsilon then x + y
  else correctedLength x y

/-- Length of a plane vector. An infinite coordinate wins over an undefined one. -/
def hypot (x y : Float) : Float :=
  let a := x.abs
  let b := y.abs
  if a.isInf || b.isInf then 1.0 / 0.0
  else if a.isNaN || b.isNaN then x + y
  else if a < b then orderedLength b a
  else orderedLength a b

end QubitPulse.Double
