import Mathlib.Analysis.SpecialFunctions.Trigonometric.Basic
import Mathlib.Data.Nat.Log
import QubitPulse.Amplitude
import QubitPulse.Word

/-!
# Exact arithmetic

The reals are scalars without rounding, and amplitudes over them are the complex numbers. Read at the
reals, a numerical definition has its mathematical meaning.
-/
namespace QubitPulse

/-- Every real number is finite, and the comparisons are those of the order. The sign of zero is taken
to be positive. -/
noncomputable instance : Scalar ℝ where
  zero := 0
  one := 1
  pi := Real.pi
  ofNat n := n
  ofDecimal m k := m / 10 ^ k
  abs x := |x|
  sqrt := Real.sqrt
  sin := Real.sin
  cos := Real.cos
  hypot x y := Real.sqrt (x ^ 2 + y ^ 2)
  signum x := if x < 0 then -1 else 1
  lt x y := decide (x < y)
  le x y := decide (x ≤ y)
  eq x y := decide (x = y)
  isFinite _ := true
  isNaN _ := false
  floorNat x := min ⌊x⌋₊ (Word.size - 1)
  ceilNat x := min ⌈x⌉₊ (Word.size - 1)
  doublings x := Nat.clog 2 ⌈x⌉₊
  twoPow n := (Nat.pow 2 n : ℕ)

namespace Scalar

@[simp] theorem zero_real : (zero : ℝ) = 0 := rfl

@[simp] theorem one_real : (one : ℝ) = 1 := rfl

@[simp] theorem pi_real : (pi : ℝ) = Real.pi := rfl

@[simp] theorem ofNat_real (n : ℕ) : (ofNat n : ℝ) = n := rfl

@[simp] theorem ofDecimal_real (m k : ℕ) : (ofDecimal m k : ℝ) = m / 10 ^ k := rfl

@[simp] theorem two_real : (two : ℝ) = 2 := by simp [two]

@[simp] theorem abs_real (x : ℝ) : abs x = |x| := rfl

@[simp] theorem signum_real (x : ℝ) : signum x = if x < 0 then -1 else 1 := rfl

@[simp] theorem lt_real (x y : ℝ) : lt x y = decide (x < y) := rfl

@[simp] theorem eq_real (x y : ℝ) : eq x y = decide (x = y) := rfl

@[simp] theorem isFinite_real (x : ℝ) : isFinite x = true := rfl

@[simp] theorem isPositive_real (x : ℝ) : isPositive x = decide (0 < x) := rfl

@[simp] theorem isDuration_real (x : ℝ) : isDuration x = decide (0 ≤ x) := by
  simp [isDuration, ← not_lt]

/-- A number is its size in the direction of its sign. -/
theorem abs_mul_signum (x : ℝ) : abs x * signum x = x := by
  rw [abs_real, signum_real]
  split_ifs with h
  · rw [abs_of_neg h, neg_mul_neg, mul_one]
  · rw [abs_of_nonneg (not_lt.mp h), mul_one]

theorem sum_real (xs : List ℝ) : sum xs = xs.sum := by
  have hfold : ∀ (xs : List ℝ) (start : ℝ), xs.foldl (· + ·) start = start + xs.sum := by
    intro xs
    induction xs with
    | nil => simp
    | cons x xs ih =>
      intro start
      rw [List.foldl_cons, ih, List.sum_cons]
      exact add_assoc start x xs.sum
  unfold sum
  rw [hfold]
  exact (congrArg (· + xs.sum) neg_zero).trans (zero_add _)

end Scalar

namespace Amplitude

def toComplex (z : Amplitude ℝ) : ℂ := ⟨z.re, z.im⟩

def ofComplex (z : ℂ) : Amplitude ℝ := ⟨z.re, z.im⟩

@[simp] theorem toComplex_ofComplex (z : ℂ) : (ofComplex z).toComplex = z := rfl

@[simp] theorem toComplex_zero : (zero : Amplitude ℝ).toComplex = 0 := rfl

@[simp] theorem toComplex_one : (one : Amplitude ℝ).toComplex = 1 := rfl

@[simp] theorem toComplex_i : (i : Amplitude ℝ).toComplex = Complex.I := rfl

@[simp] theorem toComplex_ofReal (x : ℝ) : (ofReal x).toComplex = x := rfl

@[simp] theorem toComplex_add (z w : Amplitude ℝ) :
    (z + w).toComplex = z.toComplex + w.toComplex := rfl

@[simp] theorem toComplex_neg (z : Amplitude ℝ) : (-z).toComplex = -z.toComplex := rfl

@[simp] theorem toComplex_mul (z w : Amplitude ℝ) :
    (z * w).toComplex = z.toComplex * w.toComplex :=
  Complex.ext rfl rfl

@[simp] theorem toComplex_settled (z : Amplitude ℝ) : z.settled.toComplex = z.toComplex :=
  (toComplex_mul z one).trans (mul_one _)

/-- The amplitude of an argument is the exponential of its multiple by the imaginary unit. -/
theorem toComplex_ofPhase (phase : ℝ) :
    (ofPhase phase).toComplex = Complex.exp (phase * Complex.I) := by
  rw [Complex.exp_mul_I]
  refine Complex.ext ?_ ?_ <;>
    simp [ofPhase, toComplex, Scalar.cos, Scalar.sin, ← Complex.ofReal_cos, ← Complex.ofReal_sin]

theorem isZero_eq_true {z : Amplitude ℝ} : z.isZero = true ↔ z.toComplex = 0 := by
  simp [isZero, toComplex, Complex.ext_iff]

end Amplitude
end QubitPulse
