import Mathlib
import QubitPulse.Operator.Exponential
import QubitPulse.Proofs.Exact.Register

/-!
# The exponential as it is computed

The matrix is halved, a part of the exponential series is summed and the sum is squared. Read at exact
arithmetic this is a polynomial in the matrix, so it stays in every algebra that has the matrix.
-/
namespace QubitPulse

open Matrix

/-- The terms of the exponential series up to this order. -/
noncomputable def taylor {R : Type*} [Ring R] [Algebra ℂ R] (order : ℕ) (a : R) : R :=
  ∑ k ∈ Finset.range (order + 1), ((k.factorial : ℂ)⁻¹) • a ^ k

section Polynomials

variable {R R' : Type*} [Ring R] [Algebra ℂ R] [Ring R'] [Algebra ℂ R']

theorem taylor_zero (a : R) : taylor 0 a = 1 := by
  simp [taylor]

theorem taylor_succ (order : ℕ) (a : R) : taylor (order + 1) a =
    taylor order a + (((order + 1).factorial : ℂ)⁻¹) • a ^ (order + 1) :=
  Finset.sum_range_succ _ _

theorem map_taylor (f : R →ₐ[ℂ] R') (order : ℕ) (a : R) :
    f (taylor order a) = taylor order (f a) := by
  simp [taylor]

theorem taylor_mem {S : Subalgebra ℂ R} {a : R} (ha : a ∈ S) (order : ℕ) : taylor order a ∈ S :=
  sum_mem fun _ _ => S.smul_mem (pow_mem ha _) _

end Polynomials

namespace Operator

section Loop

variable {α : Type} [Scalar α]

/-- The term of an order, computed from the one before it. -/
def seriesTerm (a : Operator α) : ℕ → Operator α
  | 0 => identity a.rows
  | k + 1 => ((seriesTerm a k).mul a).divReal (Scalar.ofNat (k + 1))

/-- The sum of the terms up to an order, added in turn. -/
def partialSum (a : Operator α) : ℕ → Operator α
  | 0 => identity a.rows
  | order + 1 => (partialSum a order).add (seriesTerm a (order + 1))

/-- This is the first order, after that of the identity, whose term is negligible. -/
structure StopsAt (a : Operator α) (order : ℕ) : Prop where
  pos : 0 < order
  negligible : Scalar.lt (oneNorm (seriesTerm a order)) negligible = true
  first : ∀ k, 0 < k → k < order → Scalar.lt (oneNorm (seriesTerm a k)) Operator.negligible = false

/-- Whether a series stops at an order depends on the norms of its terms. -/
theorem StopsAt.congr {a b : Operator α} {order : ℕ} (h : StopsAt a order)
    (hterms : ∀ k, oneNorm (seriesTerm b k) = oneNorm (seriesTerm a k)) : StopsAt b order where
  pos := h.pos
  negligible := by
    rw [hterms]
    exact h.negligible
  first k hk hlt := by
    rw [hterms]
    exact h.first k hk hlt

/-- One round of the loop: the next term is added, and the sum is the result if that was negligible. -/
theorem seriesFrom_succ (a : Operator α) (fuel k : ℕ) :
    seriesFrom a (fuel + 1) (k + 1) (seriesTerm a k) (partialSum a k) =
      if Scalar.lt (oneNorm (seriesTerm a (k + 1))) negligible then partialSum a (k + 1)
      else seriesFrom a fuel (k + 2) (seriesTerm a (k + 1)) (partialSum a (k + 1)) :=
  rfl

/-- However the loop ends, its result is the sum up to some order. -/
theorem exists_seriesFrom_eq (a : Operator α) (fuel k : ℕ) : ∃ order ≤ k + fuel,
    seriesFrom a fuel (k + 1) (seriesTerm a k) (partialSum a k) = partialSum a order := by
  induction fuel generalizing k with
  | zero => exact ⟨k, le_rfl, rfl⟩
  | succ fuel ih =>
    rw [seriesFrom_succ]
    split_ifs
    · exact ⟨k + 1, by omega, rfl⟩
    · obtain ⟨order, horder, h⟩ := ih (k + 1)
      exact ⟨order, by omega, h⟩

/-- If there is a negligible term that the loop can reach, the result is the sum up to the first one. -/
theorem seriesFrom_of_stopsAt {a : Operator α} {order : ℕ} (h : StopsAt a order) (fuel : ℕ) {k : ℕ}
    (hk : k < order) (hfuel : order ≤ k + fuel) :
    seriesFrom a fuel (k + 1) (seriesTerm a k) (partialSum a k) = partialSum a order := by
  induction fuel generalizing k with
  | zero => omega
  | succ fuel ih =>
    rw [seriesFrom_succ]
    rcases Nat.lt_or_eq_of_le (Nat.succ_le_of_lt hk) with hnext | rfl
    · rw [h.first (k + 1) k.succ_pos hnext, if_neg Bool.false_ne_true]
      exact ih hnext (by omega)
    · exact if_pos h.negligible

end Loop

variable {n : ℕ} {a u : Operator ℝ} {A U : Matrix (Fin n) (Fin n) ℂ}

theorem Represents.divReal {m : ℕ} {A : Matrix (Fin n) (Fin m) ℂ} (h : a.Represents A) (x : ℝ) :
    (a.divReal x).Represents ((x : ℂ)⁻¹ • A) := by
  obtain ⟨rfl, rfl, h⟩ := h
  refine ⟨rfl, rfl, fun i j => ?_⟩
  rw [Operator.divReal, entry_map _ i.isLt j.isLt, Matrix.smul_apply, ← h, smul_eq_mul,
    ← Complex.ofReal_inv]
  refine Complex.ext ?_ ?_
  · rw [Complex.re_ofReal_mul]
    exact div_eq_inv_mul _ _
  · rw [Complex.im_ofReal_mul]
    exact div_eq_inv_mul _ _

theorem seriesTerm_represents (ha : a.Represents A) (k : ℕ) :
    (seriesTerm a k).Represents (((k.factorial : ℂ)⁻¹) • A ^ k) := by
  induction k with
  | zero =>
    rw [Nat.factorial_zero, Nat.cast_one, inv_one, pow_zero, one_smul]
    exact ha.rows ▸ Represents.identity
  | succ k ih =>
    have hscalar : ((((k + 1 : ℕ) : ℝ) : ℂ)⁻¹) * (k.factorial : ℂ)⁻¹ =
        ((k + 1).factorial : ℂ)⁻¹ := by
      rw [Nat.factorial_succ, Nat.cast_mul, mul_inv, Complex.ofReal_natCast]
    have h := (ih.mul ha).divReal (Scalar.ofNat (k + 1))
    rwa [smul_mul_assoc, ← pow_succ, smul_smul, Scalar.ofNat_real, hscalar] at h

theorem partialSum_represents (ha : a.Represents A) (order : ℕ) :
    (partialSum a order).Represents (taylor order A) := by
  induction order with
  | zero =>
    rw [taylor_zero]
    exact ha.rows ▸ Represents.identity
  | succ order ih =>
    rw [taylor_succ]
    exact ih.add (seriesTerm_represents ha (order + 1))

theorem series_represents (ha : a.Represents A) :
    ∃ order ≤ mostTerms, (series a).Represents (taylor order A) := by
  obtain ⟨order, horder, hsum⟩ := exists_seriesFrom_eq a mostTerms 0
  rw [zero_add] at horder
  have hseries : series a = partialSum a order := hsum
  exact ⟨order, horder, hseries ▸ partialSum_represents ha order⟩

theorem squareTimes_represents (s : ℕ) (hu : u.Represents U) :
    (squareTimes s u).Represents (U ^ 2 ^ s) := by
  induction s generalizing u U with
  | zero => simpa [squareTimes] using hu
  | succ s ih =>
    have h := ih (hu.mul hu)
    rwa [← pow_two, ← pow_mul, ← pow_succ'] at h

theorem isFinite_real (a : Operator ℝ) : a.isFinite = true := by
  simp [Operator.isFinite, Amplitude.isFinite]

/-- The matrix that the series is summed for. -/
def halved {α : Type} [Scalar α] (a : Operator α) : Operator α :=
  a.divReal (Scalar.twoPow (halvings (oneNorm a)))

theorem halved_represents (ha : a.Represents A) :
    (halved a).Represents (((2 : ℂ) ^ halvings (oneNorm a))⁻¹ • A) := by
  have hpower : ((Scalar.twoPow (halvings (oneNorm a)) : ℝ) : ℂ) = (2 : ℂ) ^ halvings (oneNorm a) := by
    simp [Scalar.twoPow]
  have hscaled := ha.divReal (Scalar.twoPow (halvings (oneNorm a)))
  rwa [hpower] at hscaled

/-- The computed exponential of a square matrix is the series, squared as often as the matrix was
halved. -/
theorem exp_represents_of_series (ha : a.Represents A) (hu : (series (halved a)).Represents U) :
    ∃ u, exp a = .ok u ∧ u.Represents (U ^ 2 ^ halvings (oneNorm a)) := by
  unfold Operator.exp
  rw [ha.isSquare, isFinite_real]
  simp only [Bool.not_true, Bool.false_eq_true, if_false]
  split_ifs with hzero
  · -- There is one matrix without rows, and it is whatever it should be.
    obtain rfl : n = 0 := ha.rows.symm.trans hzero
    exact ⟨_, rfl, rfl, rfl, fun i => i.elim0⟩
  · exact ⟨_, rfl, squareTimes_represents _ hu⟩

/-- It is a power of a sum of terms of the series for the halved matrix, at most thirty after the first. -/
theorem exp_represents (ha : a.Represents A) : ∃ u, exp a = .ok u ∧ ∃ order ≤ mostTerms,
    u.Represents (taylor order (((2 : ℂ) ^ halvings (oneNorm a))⁻¹ • A) ^
      2 ^ halvings (oneNorm a)) := by
  obtain ⟨order, horder, hsum⟩ := series_represents (halved_represents ha)
  obtain ⟨u, hu, hrepresents⟩ := exp_represents_of_series ha hsum
  exact ⟨u, hu, order, horder, hrepresents⟩

section Registers

variable {n : ℕ} {a : Operator ℝ} {A : Matrix (Basis n) (Basis n) ℂ}

/-- Matrices of a register, with basis states by their numbers. -/
noncomputable def renumber (n : ℕ) : Matrix (Basis n) (Basis n) ℂ →ₐ[ℂ]
    Matrix (Fin (registerDim n)) (Fin (registerDim n)) ℂ :=
  Matrix.reindexAlgEquiv ℂ ℂ (Basis.numbering n)

theorem actsAs_iff_renumber : a.ActsAs A ↔ a.Represents (renumber n A) := Iff.rfl

theorem exp_actsAs (ha : a.ActsAs A) : ∃ u, exp a = .ok u ∧ ∃ order ≤ mostTerms,
    u.ActsAs (taylor order (((2 : ℂ) ^ halvings (oneNorm a))⁻¹ • A) ^
      2 ^ halvings (oneNorm a)) := by
  obtain ⟨u, hu, order, horder, hrepresents⟩ := exp_represents (actsAs_iff_renumber.mp ha)
  refine ⟨u, hu, order, horder, actsAs_iff_renumber.mpr ?_⟩
  rwa [map_pow, map_taylor, map_smul]

/-- The computed exponential lies in every algebra in which the matrix lies. -/
theorem exp_mem {S : Subalgebra ℂ (Matrix (Basis n) (Basis n) ℂ)} (ha : a.ActsAs A) (hA : A ∈ S) :
    ∃ u, exp a = .ok u ∧ ∃ U ∈ S, u.ActsAs U := by
  obtain ⟨u, hu, order, -, hacts⟩ := exp_actsAs ha
  exact ⟨u, hu, _, pow_mem (taylor_mem (S.smul_mem hA _) order) _, hacts⟩

end Registers

end Operator
end QubitPulse
