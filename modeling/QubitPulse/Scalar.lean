/-!
# Scalars

Every numerical definition of this library is written over an arbitrary type of scalars. Run at
`Float` it is the program; read at an exact field of numbers the same definition is its
mathematical meaning. Comparisons answer with a `Bool`, because on floats they are not an order.
-/
namespace QubitPulse

/-- The arithmetic that pulses, states and propagators are computed in. -/
class Scalar (α : Type) extends Add α, Sub α, Mul α, Div α, Neg α where
  /-- Additive unit; on floats the positive zero. -/
  zero : α
  one : α
  pi : α
  /-- The scalar nearest to a natural number. -/
  ofNat : Nat → α
  /-- The scalar nearest to `m / 10 ^ k`. -/
  ofDecimal (m k : Nat) : α
  abs : α → α
  sqrt : α → α
  sin : α → α
  cos : α → α
  /-- Length of the plane vector with these two coordinates. -/
  hypot : α → α → α
  /-- Product of the first two and sum with the third, rounded once. -/
  mulAdd : α → α → α → α := fun x y z => x * y + z
  /-- One with the sign of the argument. The sign of a signed zero counts. -/
  signum : α → α
  lt : α → α → Bool
  le : α → α → Bool
  eq : α → α → Bool
  /-- A total order that extends `le`: it also places what is no number, and `-0` below `0`. -/
  totalLe : α → α → Bool := le
  isFinite : α → Bool
  isNaN : α → Bool
  /-- The largest natural number not above the argument, within a machine word. -/
  floorNat : α → Nat
  /-- The least natural number not below the argument, within a machine word. -/
  ceilNat : α → Nat
  /-- The least number of doublings that carry `1` to the argument or above it. -/
  doublings : α → Nat
  /-- Two to a natural power. -/
  twoPow : Nat → α

namespace Scalar

variable {α : Type} [Scalar α]

/-- The unit of sums over a list: adding to it changes nothing, not even the sign of a zero. -/
@[inline] def sumUnit : α := -(zero : α)

@[specialize] def sum (xs : List α) : α :=
  xs.foldl (· + ·) sumUnit

@[inline] def two : α := ofNat 2

/-- The larger of two scalars; one that is no number gives way to the other. -/
@[specialize] def max (x y : α) : α :=
  if isNaN x then y else if isNaN y then x else if lt x y then y else x

/-- Largest member of a list of magnitudes, zero for the empty list. -/
@[specialize] def maximum (xs : List α) : α :=
  xs.foldl max zero

@[inline] def isPositive (x : α) : Bool :=
  isFinite x && lt zero x

@[inline] def isDuration (x : α) : Bool :=
  isFinite x && !lt x zero

/-- A natural number sum `f 0 + f 1 + … + f (n - 1)`, added from the left. -/
@[specialize] def sumTo (n : Nat) (f : Nat → α) : α :=
  match n with
  | 0 => zero
  | n + 1 => sumTo n f + f n

end Scalar
end QubitPulse
