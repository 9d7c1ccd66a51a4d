import QubitPulse.Operator.Basic
import QubitPulse.Error

/-!
# Matrix exponential

The matrix is halved until its norm is at most one half, the exponential series of the rest is
summed until a term is negligible, and the sum is squared once for every halving.
-/
namespace QubitPulse.Operator

variable {α : Type} [Scalar α]

/-- Largest sum of moduli over a column. -/
@[specialize] def oneNorm (a : Operator α) : α :=
  Scalar.maximum ((List.range a.cols).map fun j =>
    Scalar.sumTo a.rows fun i => (a.entry i j).norm)

/-- Norm up to which the series is summed without halving. -/
@[inline] def seriesNorm : α := Scalar.ofDecimal 5 1

/-- Norm below which a term of the series is the last one. -/
@[inline] def negligible : α := Scalar.ofDecimal 1 18

def mostTerms : Nat := 30

/-- How often a matrix of this norm is halved. -/
@[inline] def halvings (norm : α) : Nat :=
  if Scalar.lt seriesNorm norm then Scalar.doublings (norm / seriesNorm) else 0

/-- Adds to a partial sum the terms of order `k` and above, from the term of order `k - 1`. -/
@[specialize] def seriesFrom (a : Operator α) :
    Nat → Nat → Operator α → Operator α → Operator α
  | 0, _, _, total => total
  | fuel + 1, k, term, total =>
    let next := divReal (mul term a) (Scalar.ofNat k)
    let total := add total next
    if Scalar.lt (oneNorm next) negligible then total
    else seriesFrom a fuel (k + 1) next total

@[specialize] def series (a : Operator α) : Operator α :=
  seriesFrom a mostTerms 1 (identity a.rows) (identity a.rows)

@[specialize] def squareTimes : Nat → Operator α → Operator α
  | 0, u => u
  | n + 1, u => squareTimes n (mul u u)

/-- Exponential of a square matrix with finite entries. -/
@[specialize] def exp (a : Operator α) : Result α (Operator α) :=
  if !a.isSquare then .error (.dimensionMismatch a.rows a.cols)
  else if a.rows = 0 then .ok (identity 0)
  else if !a.isFinite then .error (.solverError .nonFiniteGenerator)
  else
    let s := halvings (oneNorm a)
    .ok (squareTimes s (series (divReal a (Scalar.twoPow s))))

/-- Evolution under a constant Hamiltonian for a time `dt`: the exponential of `-i * H * dt`. -/
@[specialize] def propagator (hamiltonian : Operator α) (dt : α) : Result α (Operator α) :=
  exp (hamiltonian.scale ⟨Scalar.zero, -dt⟩)

end QubitPulse.Operator
