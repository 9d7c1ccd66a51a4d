import QubitPulse.Scalar.Rounding

/-!
# Product and sum in one rounding

Sums of products round once for every term. Where the magnitudes are moderate the rounding errors of
a product and of a sum are doubles themselves, and the one rounding is made up from them; elsewhere
it is computed on the exact values.
-/
namespace QubitPulse.Double

/-- Rounded sum and its error. Together they are the exact sum. -/
@[inline] def twoSum (x y : Float) : Float × Float :=
  let s := x + y
  let t := s - x
  (s, (x - (s - t)) + (y - t))

/-- `2 ^ 27 + 1`, which splits a double into two halves of 26 bits. -/
@[inline] def splitter : Float := 134217729.0

/-- Upper half of a double; what is missing is the lower half. -/
@[inline] def upperHalf (x : Float) : Float :=
  let t := splitter * x
  t - (t - x)

/-- Error of a rounded product, from the products of the halves, which are exact. -/
@[inline] def productError (x y p : Float) : Float :=
  let x₁ := upperHalf x
  let y₁ := upperHalf y
  let x₂ := x - x₁
  let y₂ := y - y₁
  ((x₁ * y₁ - p) + x₁ * y₂ + x₂ * y₁) + x₂ * y₂

/-- Sum rounded to odd: a sum that is no double becomes the odd one of its two neighbours. A further
rounding of such a value is as good as one rounding of the exact sum. -/
@[inline] def oddSum (x y : Float) : Float :=
  let (s, e) := twoSum x y
  let n := s.toBits
  if e == 0.0 || n &&& 1 == 1 then s
  else if (e > 0.0) == (s > 0.0) then Float.ofBits (n + 1)
  else Float.ofBits (n - 1)

/-- The exact `x * y + z`, rounded, where none of the three is zero. Without finite factors, or with
a term that is not finite, nothing is left to round. -/
def mulAddExact (x y z : Float) : Float :=
  match Binary.ofBits x.toBits, Binary.ofBits y.toBits with
  | some a, some b =>
    match Binary.ofBits z.toBits with
    | some c => Float.ofBits ((a.mul b).add c).nearestBits
    | none => z
  | _, _ => x * y + z

/-- Least factor whose halves are doubles, `2 ^ -960`. -/
@[inline] def leastFactor : Float := Float.ofBits 0x03f0000000000000

/-- Greatest factor that can be split, `2 ^ 990`. -/
@[inline] def greatestFactor : Float := Float.ofBits 0x7dd0000000000000

/-- Least product whose error is a double, `2 ^ -900`. -/
@[inline] def leastProduct : Float := Float.ofBits 0x07b0000000000000

/-- Greatest product and term whose sum stays finite, `2 ^ 1000`. -/
@[inline] def greatestTerm : Float := Float.ofBits 0x7e70000000000000

@[inline] def isModerate (x : Float) : Bool :=
  leastFactor ≤ x.abs && x.abs ≤ greatestFactor

/-- `x * y + z` rounded once, for moderate magnitudes: the errors of the product and of the sum of
the small parts are added to odd, and the sum of all is then rounded to nearest. -/
def mulAddModerate (x y z p : Float) : Float :=
  let (t, e) := twoSum z (productError x y p)
  let (v, d) := twoSum p t
  v + oddSum e d

/-- `x * y + z` rounded once. A vanishing factor or term leaves one operation, which rounds by
itself. -/
def mulAdd (x y z : Float) : Float :=
  let p := x * y
  if x == 0.0 || y == 0.0 then p + z
  else if z == 0.0 then p
  else if isModerate x && isModerate y && leastProduct ≤ p.abs && p.abs ≤ greatestTerm
      && z.abs ≤ greatestTerm then
    mulAddModerate x y z p
  else mulAddExact x y z

end QubitPulse.Double
