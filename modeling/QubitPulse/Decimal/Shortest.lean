import QubitPulse.Scalar.Binary

/-!
# Shortest decimals of a double

Many decimals round to one double. The shortest of them has the fewest digits, and of those with
the fewest the one nearest to the double is taken. Every test is made in exact natural-number
arithmetic.
-/
namespace QubitPulse.Decimal

/-- Which neighbour an exact midpoint goes to. -/
inductive Tie where
  | toEven
  | up
  deriving DecidableEq, Repr

/-- Whether the upper of the two neighbours `c` and `c + 1` is taken at an exact midpoint. -/
def Tie.takesUpper (t : Tie) (c : Nat) : Bool :=
  match t with
  | .toEven => c % 2 = 1
  | .up => true

def roundDiv (t : Tie) (num den : Nat) : Nat :=
  let c := num / den
  let r := 2 * (num % den)
  if den < r then c + 1
  else if r = den && t.takesUpper c then c + 1
  else c

structure Magnitude where
  digits : Nat
  exponent : Int
  deriving DecidableEq, Repr

/-- The decimals that round to a double fill an interval. In units of a quarter of the last binary
place, these are its lower end, the double and its upper end. -/
def interval (b : Binary) : Nat × Nat × Nat :=
  let m := 4 * b.significand
  (if b.opensBinade then m - 1 else m - 2, m, m + 2)

/-- Point of the grid `10 ^ k` that rounds to the double and is nearest to it, if there is one. Only
the two grid points around the double have to be tried. -/
def onGrid? (t : Tie) (b : Binary) (k : Int) : Option Nat :=
  let (low, mid, high) := interval b
  let e := b.exponent - 2
  let p := Nat.pow 2 e.toNat * Nat.pow 10 (-k).toNat
  let q := Nat.pow 2 (-e).toNat * Nat.pow 10 k.toNat
  let closed := b.significand % 2 = 0
  let c := mid * p / q
  let lower := low * p < c * q || (closed && low * p = c * q)
  let upper := (c + 1) * q < high * p || (closed && (c + 1) * q = high * p)
  if lower && upper then some (roundDiv t (mid * p) q)
  else if lower then some c
  else if upper then some (c + 1)
  else none

def search (t : Tie) (b : Binary) : Nat → Int → Magnitude
  | 0, k => ⟨(onGrid? t b k).getD 0, k⟩
  | fuel + 1, k =>
    match onGrid? t b k with
    | some c => ⟨c, k⟩
    | none => search t b fuel (k - 1)

/-- A power of ten above the double: its binary length times the logarithm of two, rounded up. -/
def coarsest (b : Binary) : Int :=
  (Nat.log2 b.significand + b.exponent) * 30103 / 100000 + 2

/-- Shortest decimal of a nonzero double. Seventeen digits always suffice, so the search ends. -/
def shortest (t : Tie) (b : Binary) : Magnitude :=
  search t b 24 (coarsest b)

end QubitPulse.Decimal
