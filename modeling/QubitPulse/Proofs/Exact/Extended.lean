import Mathlib
import QubitPulse.Operator.Embedding
import QubitPulse.Proofs.Exact.State
import QubitPulse.Proofs.Grid

/-!
# Exact arithmetic with infinities

Times may be infinite, so the reals alone do not hold all that the library accepts. Here they get the two
infinities and the undefined value that doubles have, with the rules of doubles for them and without rounding.
Among finite numbers this is the arithmetic of the reals, and so it is for the operators made of them.
-/
namespace QubitPulse

inductive Extended where
  | finite (x : ℝ)
  | infinite (negative : Bool)
  | undefined

namespace Extended

/-- Whether a number is below zero. There is one zero, and it counts as positive. -/
noncomputable def isNegative : Extended → Bool
  | finite x => decide (x < 0)
  | infinite negative => negative
  | undefined => false

def neg : Extended → Extended
  | finite x => finite (-x)
  | infinite negative => infinite !negative
  | undefined => undefined

/-- Infinities of opposite signs have no sum. -/
def add : Extended → Extended → Extended
  | finite x, finite y => finite (x + y)
  | infinite negative, infinite negative' =>
    if negative = negative' then infinite negative else undefined
  | infinite negative, finite _ => infinite negative
  | finite _, infinite negative => infinite negative
  | _, _ => undefined

/-- An infinity and zero have no product. -/
noncomputable def mul : Extended → Extended → Extended
  | finite x, finite y => finite (x * y)
  | infinite negative, infinite negative' => infinite (negative ^^ negative')
  | infinite negative, finite y =>
    if y = 0 then undefined else infinite (negative ^^ decide (y < 0))
  | finite x, infinite negative =>
    if x = 0 then undefined else infinite (decide (x < 0) ^^ negative)
  | _, _ => undefined

/-- Zero over zero and an infinity over an infinity have no quotient. -/
noncomputable def div : Extended → Extended → Extended
  | finite x, finite y =>
    if y = 0 then if x = 0 then undefined else infinite (decide (x < 0)) else finite (x / y)
  | finite _, infinite _ => finite 0
  | infinite negative, finite y => infinite (negative ^^ decide (y < 0))
  | _, _ => undefined

noncomputable def sqrt : Extended → Extended
  | finite x => if x < 0 then undefined else finite (Real.sqrt x)
  | infinite false => infinite false
  | _ => undefined

noncomputable def lt : Extended → Extended → Bool
  | finite x, finite y => decide (x < y)
  | infinite negative, infinite negative' => negative && !negative'
  | infinite negative, finite _ => negative
  | finite _, infinite negative => !negative
  | _, _ => false

noncomputable def eq : Extended → Extended → Bool
  | finite x, finite y => decide (x = y)
  | infinite negative, infinite negative' => negative == negative'
  | _, _ => false

/-- What has no number of its own is placed above all numbers. -/
noncomputable def totalLe : Extended → Extended → Bool
  | _, undefined => true
  | undefined, _ => false
  | x, y => x.lt y || x.eq y

def isFinite : Extended → Bool
  | finite _ => true
  | _ => false

/-- A function of the reals that has a value at every number, but none at the infinities. -/
def onFinite (f : ℝ → ℝ) : Extended → Extended
  | finite x => finite (f x)
  | _ => undefined

/-- Counts of whole numbers end at the largest one for the positive infinity and at zero for all else that is
not finite. -/
def count (f : ℝ → ℕ) (most : ℕ) : Extended → ℕ
  | finite x => f x
  | infinite false => most
  | _ => 0

noncomputable instance : Scalar Extended where
  add := add
  sub x y := add x (neg y)
  mul := mul
  div := div
  neg := neg
  zero := finite 0
  one := finite 1
  pi := finite Scalar.pi
  ofNat n := finite (Scalar.ofNat n)
  ofDecimal m k := finite (Scalar.ofDecimal m k)
  abs x := if x.isNegative then neg x else x
  sqrt := sqrt
  sin := onFinite Scalar.sin
  cos := onFinite Scalar.cos
  hypot
    | finite x, finite y => finite (Scalar.hypot x y)
    | infinite _, _ => infinite false
    | _, infinite _ => infinite false
    | _, _ => undefined
  signum
    | undefined => undefined
    | x => finite (if x.isNegative then -1 else 1)
  lt := lt
  le x y := lt x y || eq x y
  eq := eq
  totalLe := totalLe
  isFinite := isFinite
  isNaN
    | undefined => true
    | _ => false
  floorNat := count Scalar.floorNat (Word.size - 1)
  ceilNat := count Scalar.ceilNat (Word.size - 1)
  doublings := count Scalar.doublings (Nat.pow 2 31 - 1)
  twoPow n := finite (Scalar.twoPow n)

@[simp] theorem zero_eq : (Scalar.zero : Extended) = finite 0 := rfl

@[simp] theorem one_eq : (Scalar.one : Extended) = finite 1 := rfl

@[simp] theorem two_eq : (Scalar.two : Extended) = finite 2 := congrArg finite Scalar.two_real

@[simp] theorem finite_sub (x y : ℝ) : finite x - finite y = finite (x - y) :=
  congrArg finite (sub_eq_add_neg x y).symm

@[simp] theorem finite_mul (x y : ℝ) : finite x * finite y = finite (x * y) := rfl

theorem finite_div (x : ℝ) {y : ℝ} (h : y ≠ 0) : finite x / finite y = finite (x / y) := if_neg h

theorem sqrt_finite {x : ℝ} (h : 0 ≤ x) : Scalar.sqrt (finite x) = finite (Real.sqrt x) :=
  if_neg (not_lt.mpr h)

@[simp] theorem lt_finite (x y : ℝ) : Scalar.lt (finite x) (finite y) = decide (x < y) := rfl

@[simp] theorem lt_infinite_finite (negative : Bool) (x : ℝ) :
    Scalar.lt (infinite negative) (finite x) = negative := rfl

@[simp] theorem lt_infinite (negative negative' : Bool) :
    Scalar.lt (infinite negative) (infinite negative') = (negative && !negative') := rfl

@[simp] theorem two_mul_infinite (negative : Bool) : finite 2 * infinite negative = infinite negative := by
  change (if (2 : ℝ) = 0 then undefined else infinite (decide ((2 : ℝ) < 0) ^^ negative)) = _
  rw [if_neg two_ne_zero, decide_eq_false (not_lt.mpr zero_le_two), Bool.false_xor]

@[simp] theorem isPositive_finite (x : ℝ) : Scalar.isPositive (finite x) = decide (0 < x) := rfl

@[simp] theorem isPositive_infinite (negative : Bool) :
    Scalar.isPositive (infinite negative) = false := rfl

@[simp] theorem isPositive_undefined : Scalar.isPositive undefined = false := rfl

end Extended

/-! ## Amplitudes and operators -/

/-- An amplitude of finite numbers. -/
def Amplitude.extended (z : Amplitude ℝ) : Amplitude Extended := ⟨.finite z.re, .finite z.im⟩

theorem Amplitude.extended_mul (z w : Amplitude ℝ) : (z * w).extended = z.extended * w.extended := by
  have hre : (z * w).re = z.re * w.re - z.im * w.im := rfl
  have him : (z * w).im = z.re * w.im + z.im * w.re := rfl
  unfold extended
  rw [hre, him, ← Extended.finite_sub]
  rfl

namespace Operator

/-- An operator of finite numbers. -/
def extended (a : Operator ℝ) : Operator Extended := a.map Amplitude.extended

variable {n : ℕ} {a b : Operator ℝ}

theorem extended_ofFn (m n : ℕ) (f : ℕ → ℕ → Amplitude ℝ) :
    extended (Grid.ofFn m n f) = Grid.ofFn m n fun i j => (f i j).extended := by
  simp [extended, Grid.map, Grid.ofFn, Array.map_ofFn, Function.comp_def]

theorem entry_extended (a : Operator ℝ) (i j : ℕ) : a.extended.entry i j = (a.entry i j).extended := by
  unfold entry Grid.getD
  by_cases hj : j < a.cols
  · have hcols : j < a.extended.cols := hj
    rw [if_pos hj, if_pos hcols]
    by_cases hk : i * a.cols + j < a.entries.size
    · simp [extended, Grid.map, Array.getD, hk]
    · simp [extended, Grid.map, Array.getD, hk]
      rfl
  · have hcols : ¬j < a.extended.cols := hj
    rw [if_neg hj, if_neg hcols]
    rfl

theorem extended_identity (n : ℕ) : extended (identity n) = identity n := by
  rw [identity, extended_ofFn]
  unfold identity
  congr 1
  funext i j
  rw [apply_ite Amplitude.extended]
  rfl

theorem extended_kron (a b : Operator ℝ) : (kron a b).extended = kron a.extended b.extended := by
  rw [kron, extended_ofFn]
  unfold kron
  congr 1
  funext i j
  simp only [kronEntry, Amplitude.extended_mul, entry_extended]
  rfl

theorem extended_tensor (q : ℕ) (op : Operator ℝ) (n : ℕ) :
    (tensor [(q, op)] n).extended = tensor [(q, op.extended)] n := by
  have hfactor : ∀ s, (factorAt [(q, op)] s).extended = factorAt [(q, op.extended)] s := by
    intro s
    by_cases hs : q = s
    · simp [factorAt, hs]
    · simp [factorAt, hs, extended_identity]
  induction n with
  | zero => exact extended_identity 1
  | succ n ih => rw [tensor, extended_kron, ih, hfactor, tensor]

theorem extended_scaleReal (a : Operator ℝ) (x : ℝ) :
    (a.scaleReal x).extended = a.extended.scaleReal (.finite x) := by
  exact (Grid.map_map a _ _).trans
    (Grid.map_map a Amplitude.extended fun z => z.scale (.finite x)).symm

theorem Represents.scaleReal {m n : ℕ} {M : Matrix (Fin m) (Fin n) ℂ} (ha : a.Represents M) (x : ℝ) :
    (a.scaleReal x).Represents ((x : ℂ) • M) := by
  obtain ⟨rfl, rfl, ha⟩ := ha
  refine ⟨rfl, rfl, fun i j => ?_⟩
  rw [Operator.scaleReal, entry_map _ i.isLt j.isLt, Matrix.smul_apply, ← ha, smul_eq_mul]
  refine Complex.ext ?_ ?_
  · rw [Complex.re_ofReal_mul]
    exact mul_comm _ _
  · rw [Complex.im_ofReal_mul]
    exact mul_comm _ _

end Operator
end QubitPulse
