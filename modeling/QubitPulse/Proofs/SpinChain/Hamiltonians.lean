import QubitPulse.Proofs.Gate.Expansion
import QubitPulse.Proofs.SpinChain.Controls
import QubitPulse.Proofs.SpinChain.Pulses

/-!
# A pulse performs its gate

The evolution under the control that a native gate drives, for the area of its pulse, is the textbook
matrix of the gate.
-/
namespace QubitPulse

open Matrix NormedSpace

section Rotations

variable {n : ℕ}

/-- Evolution under a Pauli matrix of one qubit is a rotation of that qubit. -/
theorem exp_smul_onQubit (q : Fin n) {P : LocalMatrix} (h : P * P = 1) (θ : ℝ) :
    exp ((-(Complex.I * (θ / 2 : ℝ))) • onQubit q P) = onQubit q (rotationAbout P θ) := by
  have hsquare : onQubit q P * onQubit q P = 1 := by rw [onQubit_mul, h, onQubit_one]
  have hcube : onQubit q P * onQubit q P * onQubit q P = onQubit q P := by rw [hsquare, one_mul]
  rw [exp_smul_matrix hcube, hsquare, rotationAbout_eq h, onQubit_sub, onQubit_smul, onQubit_smul,
    onQubit_one, Complex.ofReal_cos, Complex.ofReal_sin]
  module

end Rotations

section Exchanges

/-- Exchange of the values of a pair that differ; a pair of equal values is sent to zero. -/
def flipMatrix : PairMatrix :=
  pairMatrix !![0, 0, 0, 0; 0, 0, 1, 0; 0, 1, 0, 0; 0, 0, 0, 0]

theorem exchangeMatrix_eq : exchangeMatrix = (2 : ℂ) • flipMatrix := by
  unfold exchangeMatrix
  ext ⟨i, j⟩ ⟨k, l⟩
  fin_cases i <;> fin_cases j <;> fin_cases k <;> fin_cases l <;>
    simp [pauliX, pauliY, flipMatrix, pairMatrix, finProdFinEquiv] <;> norm_num

theorem flipMatrix_mul_self : flipMatrix * flipMatrix =
    pairMatrix !![0, 0, 0, 0; 0, 1, 0, 0; 0, 0, 1, 0; 0, 0, 0, 0] := by
  rw [flipMatrix, pairMatrix, Matrix.submatrix_mul_equiv, pairMatrix]
  congr 1
  ext i j
  fin_cases i <;> fin_cases j <;> simp

theorem flipMatrix_cube : flipMatrix * flipMatrix * flipMatrix = flipMatrix := by
  rw [flipMatrix_mul_self, flipMatrix, pairMatrix, pairMatrix, Matrix.submatrix_mul_equiv]
  congr 1
  ext i j
  fin_cases i <;> fin_cases j <;> simp

/-- The exchange by an angle. -/
noncomputable def exchangeBy (θ : ℂ) : PairMatrix :=
  1 - (Complex.I * Complex.sin θ) • flipMatrix + (Complex.cos θ - 1) • (flipMatrix * flipMatrix)

theorem exp_smul_onPair {n : ℕ} {q r : Fin n} (h : q ≠ r) (θ : ℂ) :
    exp ((-(Complex.I * θ)) • onPair q r flipMatrix) = onPair q r (exchangeBy θ) := by
  have hcube : onPair q r flipMatrix * onPair q r flipMatrix * onPair q r flipMatrix =
      onPair q r flipMatrix := by
    rw [onPair_mul h, onPair_mul h, flipMatrix_cube]
  rw [exp_smul_matrix hcube, onPair_mul h, exchangeBy, onPair_add, onPair_sub, onPair_one h,
    onPair_smul, onPair_smul]

theorem exp_smul_exchange {n : ℕ} {q r : Fin n} (h : q ≠ r) (θ : ℝ) :
    exp ((-(Complex.I * (θ / 2 : ℝ))) • onPair q r exchangeMatrix) =
      onPair q r (exchangeBy θ) := by
  rw [← exp_smul_onPair h, exchangeMatrix_eq, onPair_smul, smul_smul]
  congr 2
  push_cast
  ring

theorem exchangeBy_eq (θ : ℂ) : exchangeBy θ =
    pairMatrix !![1, 0, 0, 0; 0, Complex.cos θ, -(Complex.I * Complex.sin θ), 0;
      0, -(Complex.I * Complex.sin θ), Complex.cos θ, 0; 0, 0, 0, 1] := by
  have hone : (1 : PairMatrix) = pairMatrix 1 := (Matrix.submatrix_one_equiv _).symm
  rw [exchangeBy, flipMatrix_mul_self, hone, flipMatrix]
  ext x y
  simp only [pairMatrix, Matrix.add_apply, Matrix.sub_apply, Matrix.smul_apply,
    Matrix.submatrix_apply]
  generalize (finProdFinEquiv x : Fin 4) = i
  generalize (finProdFinEquiv y : Fin 4) = j
  fin_cases i <;> fin_cases j <;> simp

theorem exchangeBy_iSwap : exchangeBy ((-(Real.pi / 2) : ℝ) : ℂ) = iSwapMatrix := by
  rw [exchangeBy_eq, iSwapMatrix, ← Complex.ofReal_cos, ← Complex.ofReal_sin, Real.cos_neg,
    Real.sin_neg, Real.cos_pi_div_two, Real.sin_pi_div_two]
  simp

theorem exchangeBy_sqrtISwap : exchangeBy ((-(Real.pi / 4) : ℝ) : ℂ) = sqrtISwapMatrix := by
  rw [exchangeBy_eq, sqrtISwapMatrix, ← Complex.ofReal_cos, ← Complex.ofReal_sin, Real.cos_neg,
    Real.sin_neg, Real.cos_pi_div_four, Real.sin_pi_div_four, inv_sqrt_two]
  simp

end Exchanges

namespace SpinChain

variable {n : ℕ} {couplings : List (ℕ × ℕ)}

theorem controlMatrices_x (q : Fin n) :
    (controlMatrices n couplings)[(q : ℕ)]? = some (onQubit q pauliX) := by
  simp [controlMatrices, List.getElem?_append]

theorem controlMatrices_z (q : Fin n) :
    (controlMatrices n couplings)[n + (q : ℕ)]? = some (onQubit q pauliZ) := by
  simp [controlMatrices, List.getElem?_append]

/-- The control of the coupling that joins a pair, in whichever order it lists the pair. -/
theorem controlMatrices_exchange {q r : Fin n} {k : ℕ}
    (h : couplings.findIdx? (ChainContext.joins q r) = some k) :
    (controlMatrices n couplings)[2 * n + k]? = some (onPair q r exchangeMatrix) := by
  obtain ⟨hk, hjoins, -⟩ := List.findIdx?_eq_some_iff_getElem.mp h
  have hmatrix : atPair n couplings[k].1 couplings[k].2 exchangeMatrix =
      onPair q r exchangeMatrix := by
    simp only [ChainContext.joins, Bool.or_eq_true, decide_eq_true_eq] at hjoins
    rcases hjoins with hpair | hpair
    · rw [hpair, atPair_val]
    · rw [hpair, atPair_val, onPair_exchangeMatrix]
  simp [controlMatrices, two_mul, hk, hmatrix, add_assoc]

/-- The evolution under the control of a pulse, for its area, is the matrix of its gate. -/
theorem exp_of_pulse {g : Gate ℝ} {row : ℕ} {area : ℝ} (h : Pulse n couplings g row area) :
    ∃ H, (controlMatrices n couplings)[row]? = some H ∧
      exp ((-(Complex.I * area)) • H) = g.unitary n := by
  cases h with
  | rx q θ =>
    exact ⟨_, controlMatrices_x q, (exp_smul_onQubit q pauliX_mul_self θ).trans (by simp)⟩
  | rz q θ =>
    exact ⟨_, controlMatrices_z q, (exp_smul_onQubit q pauliZ_mul_self θ).trans (by simp)⟩
  | iSwap q r distinct k coupled =>
    have hangle : -(Real.pi / 4) = -(Real.pi / 2) / 2 := by ring
    refine ⟨_, controlMatrices_exchange coupled, ?_⟩
    rw [hangle, exp_smul_exchange distinct, exchangeBy_iSwap]
    exact (atPair_val q r _).symm
  | sqrtISwap q r distinct k coupled =>
    have hangle : -(Real.pi / 8) = -(Real.pi / 4) / 2 := by ring
    refine ⟨_, controlMatrices_exchange coupled, ?_⟩
    rw [hangle, exp_smul_exchange distinct, exchangeBy_sqrtISwap]
    exact (atPair_val q r _).symm

end SpinChain
end QubitPulse
