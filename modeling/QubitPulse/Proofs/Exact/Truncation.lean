import Mathlib
import QubitPulse.Proofs.Exact.Norm
import QubitPulse.Proofs.Exact.State

/-!
# Where the exponential series is cut off

A matrix is halved until its norm is at most one half. From there the terms of the series fall so fast that
one of the first sixteen is negligible, and what comes after it is smaller still.
-/
namespace QubitPulse

open Matrix

section Tail

variable {R : Type*} [NormedRing R] [NormedAlgebra ℂ R] {b : R}

theorem norm_term_le (hb : ‖b‖ ≤ 1 / 2) {k : ℕ} (hk : 0 < k) :
    ‖(k.factorial : ℂ)⁻¹ • b ^ k‖ ≤ (1 / 2) ^ k / k.factorial := by
  rw [norm_smul, norm_inv, Complex.norm_natCast, inv_mul_eq_div]
  gcongr
  exact (norm_pow_le' b hk).trans (pow_le_pow_left₀ (norm_nonneg b) hb k)

/-- The terms after an order are at most halves, quarters and so on of the term of that order. -/
theorem norm_later_term_le (hb : ‖b‖ ≤ 1 / 2) (order j : ℕ) :
    ‖((j + (order + 1)).factorial : ℂ)⁻¹ • b ^ (j + (order + 1))‖ ≤
      ‖(order.factorial : ℂ)⁻¹ • b ^ order‖ / 2 / 2 ^ j := by
  have hfactorial : ((j + (order + 1)).factorial : ℝ)⁻¹ ≤ (order.factorial : ℝ)⁻¹ := by
    gcongr
    omega
  have hpower : ‖b ^ (j + (order + 1))‖ ≤ ‖b ^ order‖ * (1 / 2) ^ (j + 1) := by
    rw [add_left_comm, pow_add]
    refine (norm_mul_le _ _).trans ?_
    gcongr
    exact (norm_pow_le' b j.succ_pos).trans (pow_le_pow_left₀ (norm_nonneg b) hb _)
  rw [norm_smul, norm_smul, norm_inv, norm_inv, Complex.norm_natCast, Complex.norm_natCast]
  calc ((j + (order + 1)).factorial : ℝ)⁻¹ * ‖b ^ (j + (order + 1))‖
      ≤ (order.factorial : ℝ)⁻¹ * (‖b ^ order‖ * (1 / 2) ^ (j + 1)) := by gcongr
    _ = (order.factorial : ℝ)⁻¹ * ‖b ^ order‖ / 2 / 2 ^ j := by
        rw [one_div, inv_pow, pow_succ]
        field_simp

variable [CompleteSpace R]

/-- What the series has after an order is the difference to the exponential. -/
theorem hasSum_tail (b : R) (order : ℕ) :
    HasSum (fun j : ℕ => ((j + (order + 1)).factorial : ℂ)⁻¹ • b ^ (j + (order + 1)))
      (NormedSpace.exp b - taylor order b) :=
  (hasSum_nat_add_iff' (order + 1)).mpr (NormedSpace.exp_series_hasSum_exp' b)

theorem norm_tail_le (hb : ‖b‖ ≤ 1 / 2) (order : ℕ) :
    ‖NormedSpace.exp b - taylor order b‖ ≤ ‖(order.factorial : ℂ)⁻¹ • b ^ order‖ :=
  (hasSum_tail b order).norm_le_of_bounded (hasSum_geometric_two' _) (norm_later_term_le hb order)

end Tail

section Matrices

variable {n : ℕ} {B : Matrix (Fin n) (Fin n) ℂ}

open scoped Matrix.Norms.Operator in
theorem columnNorm_term_le (hB : columnNorm B ≤ 1 / 2) {k : ℕ} (hk : 0 < k) :
    columnNorm ((k.factorial : ℂ)⁻¹ • B ^ k) ≤ (1 / 2) ^ k / k.factorial := by
  rw [columnNorm, transpose_smul, transpose_pow]
  exact norm_term_le hB hk

theorem hasSum_matrix_tail (B : Matrix (Fin n) (Fin n) ℂ) (order : ℕ) :
    HasSum (fun j : ℕ => ((j + (order + 1)).factorial : ℂ)⁻¹ • B ^ (j + (order + 1)))
      (NormedSpace.exp B - taylor order B) :=
  open scoped Matrix.Norms.Operator in hasSum_tail B order

open scoped Matrix.Norms.Operator in
theorem columnNorm_tail_le (hB : columnNorm B ≤ 1 / 2) (order : ℕ) :
    columnNorm (NormedSpace.exp B - taylor order B) ≤
      columnNorm ((order.factorial : ℂ)⁻¹ • B ^ order) := by
  have htaylor : (taylor order B)ᵀ = taylor order Bᵀ := by
    simp [taylor, transpose_sum, transpose_smul, transpose_pow]
  rw [columnNorm, columnNorm, transpose_sub, ← Matrix.exp_transpose, htaylor, transpose_smul,
    transpose_pow]
  exact norm_tail_le hB order

end Matrices

namespace Operator

/-- If the term of some order is negligible, there is a first one. -/
theorem exists_stopsAt {α : Type} [Scalar α] {a : Operator α} {k : ℕ} (hk : 0 < k)
    (h : Scalar.lt (oneNorm (seriesTerm a k)) negligible = true) : ∃ order ≤ k, StopsAt a order := by
  classical
  have hexists : ∃ k, 0 < k ∧ Scalar.lt (oneNorm (seriesTerm a k)) negligible = true := ⟨k, hk, h⟩
  obtain ⟨hpos, hstop⟩ := Nat.find_spec hexists
  refine ⟨Nat.find hexists, Nat.find_min' hexists ⟨hk, h⟩, hpos, hstop, fun j hj hlt => ?_⟩
  simpa [hj] using Nat.find_min hexists hlt

variable {n : ℕ} {a : Operator ℝ} {A : Matrix (Fin n) (Fin n) ℂ}

theorem seriesNorm_real : (seriesNorm : ℝ) = 1 / 2 := by
  norm_num [seriesNorm]

theorem negligible_real : (negligible : ℝ) = 1 / 10 ^ 18 := by
  norm_num [negligible]

/-- So many halvings bring a norm down to one half. -/
theorem le_two_pow_halvings (norm : ℝ) : norm ≤ 2 ^ halvings norm * (1 / 2) := by
  unfold halvings
  rw [seriesNorm_real, Scalar.lt_real]
  split_ifs with h
  · have hdoublings : norm / (1 / 2) ≤ 2 ^ Nat.clog 2 ⌈norm / (1 / 2)⌉₊ := by
      refine (Nat.le_ceil _).trans ?_
      exact_mod_cast Nat.le_pow_clog one_lt_two _
    exact (div_le_iff₀ (by positivity)).mp hdoublings
  · rw [pow_zero, one_mul]
    simpa using h

theorem oneNorm_halved_le (ha : a.Represents A) : oneNorm (halved a) ≤ 1 / 2 := by
  rw [oneNorm_eq (halved_represents ha), columnNorm_smul, ← oneNorm_eq ha, norm_inv, norm_pow,
    Complex.norm_two, inv_mul_le_iff₀ (by positivity)]
  exact le_two_pow_halvings _

/-- The term of order sixteen is negligible, if none before it is. -/
theorem exists_stopsAt_halved (ha : a.Represents A) : ∃ order ≤ 16, StopsAt (halved a) order := by
  refine exists_stopsAt (by norm_num) ?_
  have hhalved := halved_represents ha
  have hnorm := oneNorm_halved_le ha
  rw [oneNorm_eq hhalved] at hnorm
  rw [Scalar.lt_real, decide_eq_true_iff, negligible_real, oneNorm_eq (seriesTerm_represents hhalved 16)]
  refine (columnNorm_term_le hnorm (by norm_num)).trans_lt ?_
  norm_num [Nat.factorial]

/-- What is left out of the series has a norm below that of the last term. -/
theorem oneNorm_tail_lt {order : ℕ} (ha : a.Represents A) (hnorm : oneNorm a ≤ 1 / 2)
    (h : StopsAt a order) : oneNorm (ofMatrix (NormedSpace.exp A - taylor order A)) < 1 / 10 ^ 18 := by
  have hlast := h.negligible
  rw [Scalar.lt_real, decide_eq_true_iff, negligible_real, oneNorm_eq (seriesTerm_represents ha order)]
    at hlast
  rw [oneNorm_eq ha] at hnorm
  rw [oneNorm_eq (represents_ofMatrix _)]
  exact (columnNorm_tail_le hnorm order).trans_lt hlast

/-- The cap on the number of terms never ends the loop. -/
theorem series_of_stopsAt {order : ℕ} (h : StopsAt a order) (horder : order ≤ mostTerms) :
    series a = partialSum a order :=
  seriesFrom_of_stopsAt h mostTerms h.pos (by omega)

/-- The computed exponential, by the order at which its series stops. -/
theorem exp_of_stopsAt {order : ℕ} (ha : a.Represents A) (hstop : StopsAt (halved a) order)
    (horder : order ≤ mostTerms) : ∃ u, exp a = .ok u ∧
      u.Represents (taylor order (((2 : ℂ) ^ halvings (oneNorm a))⁻¹ • A) ^ 2 ^ halvings (oneNorm a)) :=
  exp_represents_of_series ha
    (series_of_stopsAt hstop horder ▸ partialSum_represents (halved_represents ha) order)

/-- Sums of the series and their powers are polynomials in the matrix. -/
theorem exists_aeval_eq (z : ℂ) (A : Matrix (Fin n) (Fin n) ℂ) (order m : ℕ) :
    ∃ p : Polynomial ℂ, Polynomial.aeval A p = taylor order (z • A) ^ m := by
  have hmem : taylor order (z • A) ^ m ∈ Algebra.adjoin ℂ {A} :=
    pow_mem (taylor_mem (Subalgebra.smul_mem _ (Algebra.self_mem_adjoin_singleton ℂ A) z) order) m
  rwa [Algebra.adjoin_singleton_eq_range_aeval] at hmem

/-- The loop over the terms of a series ends at this order, sixteen or before, because the term is negligible
and not because of the cap. -/
structure TruncatesAt (a : Operator ℝ) (A : Matrix (Fin n) (Fin n) ℂ) (order : ℕ) : Prop where
  order_le : order ≤ 16
  stops : StopsAt a order
  term : ∀ k, (seriesTerm a k).Represents ((k.factorial : ℂ)⁻¹ • A ^ k)
  uncapped : ∀ most ≥ order, seriesFrom a most 1 (identity n) (identity n) = partialSum a order

theorem exists_truncatesAt_halved (ha : a.Represents A) :
    ∃ order, TruncatesAt (halved a) (((2 : ℂ) ^ halvings (oneNorm a))⁻¹ • A) order := by
  obtain ⟨order, horder, hstop⟩ := exists_stopsAt_halved ha
  refine ⟨order, horder, hstop, seriesTerm_represents (halved_represents ha), fun most hmost => ?_⟩
  rw [← ha.rows]
  exact seriesFrom_of_stopsAt hstop most hstop.pos (by omega)

theorem mul_comm_of_polynomial {u : Operator ℝ} {p : Polynomial ℂ} (ha : a.Represents A)
    (hu : u.Represents (Polynomial.aeval A p)) : u.mul a = a.mul u := by
  have hcommute : Polynomial.aeval A p * A = A * Polynomial.aeval A p := by
    simpa using ((Commute.all p Polynomial.X).map (Polynomial.aeval A)).eq
  exact (hu.mul ha).unique (hcommute ▸ ha.mul hu)

/-- The computed exponential of a square matrix `A`. It is halved `s` times, which brings its norm down to one
half; the Taylor series of the halved matrix is summed up to a negligible term; the result is the sum squared
`s` times, a polynomial in `A`; and all that the series has after that term is negligible as well. -/
theorem exp_halves_truncates_squares (ha : a.Represents A) :
    let s := halvings (oneNorm a)
    let B := ((2 : ℂ) ^ s)⁻¹ • A
    (halved a).Represents B ∧ oneNorm (halved a) ≤ 1 / 2 ∧
    ∃ order, TruncatesAt (halved a) B order ∧
      (∃ u, exp a = .ok u ∧
        u.Represents ((∑ k ∈ Finset.range (order + 1), (k.factorial : ℂ)⁻¹ • B ^ k) ^ 2 ^ s) ∧
        (∃ p : Polynomial ℂ, u.Represents (Polynomial.aeval A p)) ∧ u.mul a = a.mul u) ∧
      ∃ tail, HasSum (fun j : ℕ => ((j + (order + 1)).factorial : ℂ)⁻¹ • B ^ (j + (order + 1))) tail ∧
        oneNorm (ofMatrix tail) < 1 / 10 ^ 18 := by
  intro s B
  have hB : (halved a).Represents B := halved_represents ha
  have hnorm := oneNorm_halved_le ha
  obtain ⟨order, htruncates⟩ := exists_truncatesAt_halved ha
  have hstop := htruncates.stops
  have hseries := series_of_stopsAt hstop (htruncates.order_le.trans (by decide))
  obtain ⟨u, hu, hpower⟩ := exp_represents_of_series ha (hseries ▸ partialSum_represents hB order)
  obtain ⟨p, hp⟩ := exists_aeval_eq ((2 : ℂ) ^ s)⁻¹ A order (2 ^ s)
  have hpolynomial : u.Represents (Polynomial.aeval A p) := hp ▸ hpower
  exact ⟨hB, hnorm, order, htruncates,
    ⟨u, hu, hpower, ⟨p, hpolynomial⟩, mul_comm_of_polynomial ha hpolynomial⟩,
    _, hasSum_matrix_tail B order, oneNorm_tail_lt hB hnorm hstop⟩

/-- A nilpotent matrix of norm three is halved three times. -/
theorem exp_halves_truncates_squares_on_shear :
    let a : Operator ℝ := two .zero ⟨3, 0⟩ .zero .zero
    a.Represents !![0, 3; 0, 0] ∧ halvings (oneNorm a) = 3 ∧
      ∃ order ≤ 16, StopsAt (halved a) order ∧ ∃ u, exp a = .ok u ∧ u.mul a = a.mul u := by
  intro a
  have ha : a.Represents !![0, 3; 0, 0] := by
    have hthree : (Amplitude.mk 3 0 : Amplitude ℝ).toComplex = 3 := Complex.ext rfl rfl
    have h := represents_two .zero ⟨3, 0⟩ .zero .zero
    rwa [Amplitude.toComplex_zero, hthree] at h
  obtain ⟨-, -, order, htruncates, ⟨u, hu, -, -, hcommute⟩, -⟩ := exp_halves_truncates_squares ha
  refine ⟨ha, ?_, order, htruncates.order_le, htruncates.stops, u, hu, hcommute⟩
  have hnorm : oneNorm a = 3 := by
    rw [oneNorm_eq ha]
    refine eq_of_forall_ge_iff fun c => ?_
    rw [columnNorm_le_iff, Fin.forall_fin_two, Fin.sum_univ_two, Fin.sum_univ_two]
    have hpositive : 3 ≤ c → 0 ≤ c := le_trans (by norm_num)
    simpa using hpositive
  have hceil : ⌈(3 : ℝ) / (1 / 2)⌉₊ = 6 := by norm_num
  have hdoublings : (Scalar.doublings ((3 : ℝ) / (1 / 2))) = Nat.clog 2 6 :=
    congrArg (Nat.clog 2) hceil
  rw [hnorm, halvings, seriesNorm_real, hdoublings, if_pos (by norm_num)]
  decide

end Operator
end QubitPulse
