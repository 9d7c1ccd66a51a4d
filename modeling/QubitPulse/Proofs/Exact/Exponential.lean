import Mathlib
import QubitPulse.Evolution.Analytical
import QubitPulse.Proofs.Exact.Register

/-!
# Exact propagation

The evolution under a constant Hamiltonian is the exponential of a matrix. A Hamiltonian that is its
own third power has the eigenvalues 0, 1 and -1 only, and so its exponential is a quadratic polynomial
in it; every control that a chain drives is a multiple of such a matrix.
-/
namespace QubitPulse

open Matrix NormedSpace

section ClosedForm

variable {R : Type*} [NormedRing R] [NormedAlgebra ℂ R]

/-- Powers of an element that is its own third power, by its parts for the eigenvalues 1 and -1. -/
theorem pow_succ_of_cube_eq {K : R} (h : K * K * K = K) (k : ℕ) :
    K ^ (k + 1) =
      (2⁻¹ : ℂ) • (K * K + K) + ((-1) ^ (k + 1) * 2⁻¹ : ℂ) • (K * K - K) := by
  induction k with
  | zero =>
    rw [zero_add, pow_one, pow_one]
    module
  | succ k ih =>
    have hplus : K * (K * K + K) = K * K + K := by rw [mul_add, ← mul_assoc, h, add_comm]
    have hminus : K * (K * K - K) = -(K * K - K) := by rw [mul_sub, ← mul_assoc, h, neg_sub]
    rw [pow_succ', ih, mul_add, mul_smul_comm, mul_smul_comm, hplus, hminus, pow_succ (-1 : ℂ) (k + 1)]
    module

/-- Exponential of a multiple of an element that is its own third power. -/
theorem exp_smul_of_cube_eq [CompleteSpace R] {K : R} (h : K * K * K = K) (θ : ℂ) :
    exp ((-(Complex.I * θ)) • K) =
      1 - (Complex.I * Complex.sin θ) • K + (Complex.cos θ - 1) • (K * K) := by
  set z := -(Complex.I * θ) with hz
  have hterm : ∀ k : ℕ, ((k.factorial : ℂ)⁻¹) • (z • K) ^ k =
      (z ^ k / k.factorial) • ((2⁻¹ : ℂ) • (K * K + K)) +
        ((-z) ^ k / k.factorial) • ((2⁻¹ : ℂ) • (K * K - K)) +
        (if k = 0 then 1 - K * K else 0) := by
    intro k
    cases k with
    | zero => simp; module
    | succ k =>
      rw [smul_pow, pow_succ_of_cube_eq h, neg_pow z, if_neg k.succ_ne_zero]
      module
  have hsum : ∀ w : ℂ, HasSum (fun k : ℕ => w ^ k / k.factorial) (Complex.exp w) := by
    intro w
    rw [Complex.exp_eq_exp_ℂ]
    exact expSeries_div_hasSum_exp w
  have hlimit := (((hsum z).smul_const ((2⁻¹ : ℂ) • (K * K + K))).add
    ((hsum (-z)).smul_const ((2⁻¹ : ℂ) • (K * K - K)))).add
    (hasSum_ite_eq 0 (1 - K * K))
  simp only [← hterm] at hlimit
  rw [(exp_series_hasSum_exp' (𝕂 := ℂ) (z • K)).unique hlimit]
  have hcos : Complex.cos θ = (Complex.exp z + Complex.exp (-z)) / 2 := by
    rw [Complex.cos, hz]
    ring_nf
  have hsin : Complex.I * Complex.sin θ = (Complex.exp (-z) - Complex.exp z) / 2 := by
    rw [Complex.sin, hz]
    ring_nf
    simp
    ring
  rw [hcos, hsin]
  module

theorem exp_smul_matrix {ι : Type*} [Fintype ι] [DecidableEq ι] {K : Matrix ι ι ℂ}
    (h : K * K * K = K) (θ : ℂ) :
    exp ((-(Complex.I * θ)) • K) =
      1 - (Complex.I * Complex.sin θ) • K + (Complex.cos θ - 1) • (K * K) :=
  open scoped Norms.Operator in exp_smul_of_cube_eq h θ

end ClosedForm

namespace Operator

noncomputable def toMatrix (a : Operator ℝ) (m n : ℕ) : Matrix (Fin m) (Fin n) ℂ :=
  fun i j => (a.entry i j).toComplex

noncomputable def ofMatrix {m n : ℕ} (M : Matrix (Fin m) (Fin n) ℂ) : Operator ℝ :=
  Grid.ofFn m n fun i j =>
    if h : i < m ∧ j < n then .ofComplex (M ⟨i, h.1⟩ ⟨j, h.2⟩) else .zero

theorem represents_ofMatrix {m n : ℕ} (M : Matrix (Fin m) (Fin n) ℂ) : (ofMatrix M).Represents M :=
  represents_ofFn fun i j hi hj => by rw [dif_pos ⟨hi, hj⟩, Amplitude.toComplex_ofComplex]

/-- Evolution under a constant Hamiltonian for a time `dt`, without rounding and truncation. -/
noncomputable def exactPropagator : Propagation ℝ := fun hamiltonian dt =>
  if hamiltonian.isSquare then
    .ok (ofMatrix (NormedSpace.exp ((-(Complex.I * dt)) •
      hamiltonian.toMatrix hamiltonian.rows hamiltonian.rows)))
  else .error (.dimensionMismatch hamiltonian.rows hamiltonian.cols)

theorem exactPropagator_represents {n : ℕ} {h : Operator ℝ} {H : Matrix (Fin n) (Fin n) ℂ}
    (hH : h.Represents H) (dt : ℝ) :
    ∃ u, exactPropagator h dt = .ok u ∧ u.Represents (NormedSpace.exp ((-(Complex.I * dt)) • H)) := by
  have hsquare := hH.isSquare
  obtain ⟨rfl, -, hentry⟩ := hH
  have hmatrix : h.toMatrix h.rows h.rows = H := by
    ext i j
    exact hentry i j
  refine ⟨_, if_pos hsquare, ?_⟩
  rw [hmatrix]
  exact represents_ofMatrix _

theorem exactPropagator_actsAs {n : ℕ} {h : Operator ℝ} {H : Matrix (Basis n) (Basis n) ℂ}
    (hH : h.ActsAs H) (dt : ℝ) :
    ∃ u, exactPropagator h dt = .ok u ∧ u.ActsAs (NormedSpace.exp ((-(Complex.I * dt)) • H)) := by
  obtain ⟨u, hu, hexp⟩ := exactPropagator_represents hH dt
  refine ⟨u, hu, ?_⟩
  have hmap := open scoped Norms.Operator in
    map_exp (Matrix.reindexAlgEquiv ℂ ℂ (Basis.numbering n))
      (continuous_id.matrix_submatrix (Basis.numbering n).symm (Basis.numbering n).symm)
      ((-(Complex.I * dt)) • H)
  unfold ActsAs
  rw [← Matrix.reindex_apply]
  exact hmap ▸ hexp

end Operator
end QubitPulse
