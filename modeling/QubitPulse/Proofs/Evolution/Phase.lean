import QubitPulse.Proofs.Exact.State

/-!
# The phase of an evolution

The phase enters an evolution at its end, as a factor of the total propagator. A vector takes the factor
over; a density matrix does not, because the factor meets its conjugate. So the phase is seen in no
density matrix and in no probability.
-/
namespace QubitPulse

open Matrix

theorem Amplitude.ofPhase_zero_mul (z : Amplitude ℝ) : ofPhase 0 * z = z := by
  apply toComplex_injective
  rw [toComplex_mul, toComplex_ofPhase, Complex.ofReal_zero, zero_mul, Complex.exp_zero, one_mul]

theorem Amplitude.normSq_ofPhase (φ : ℝ) : Complex.normSq (ofPhase φ).toComplex = 1 := by
  rw [toComplex_ofPhase, Complex.normSq_eq_norm_sq, Complex.norm_exp_ofReal_mul_I, one_pow]

/-- The factor of a phase meets its conjugate. -/
theorem Amplitude.ofPhase_mul_star (φ : ℝ) :
    (ofPhase φ).toComplex * star (ofPhase φ).toComplex = 1 := by
  rw [Complex.star_def, Complex.mul_conj, normSq_ofPhase, Complex.ofReal_one]

namespace Operator

theorem scale_scale (u : Operator ℝ) (z w : Amplitude ℝ) : (u.scale z).scale w = u.scale (z * w) := by
  have hu := represents_toMatrix (a := u) rfl rfl
  have hproduct : w.toComplex • z.toComplex • u.toMatrix u.rows u.cols =
      (z * w).toComplex • u.toMatrix u.rows u.cols := by
    rw [smul_smul, Amplitude.toComplex_mul, mul_comm]
  exact ((hu.scale z).scale w).unique (hproduct ▸ hu.scale (z * w))

theorem apply_scale (u : Operator ℝ) (z : Amplitude ℝ) (v : Array (Amplitude ℝ)) :
    (u.scale z).apply v = (u.apply v).map (· * z) := by
  refine Array.ext (by simp [Operator.apply, Operator.scale]) fun i hi hi' => ?_
  have hrow : i < u.rows := by simpa [Operator.apply] using hi'
  have hentries : ∀ k ∈ Finset.range u.cols,
      ((u.scale z).entry i k).toComplex * (v.getD k .zero).toComplex =
        (u.entry i k).toComplex * (v.getD k .zero).toComplex * z.toComplex := by
    intro k hk
    rw [Operator.scale, entry_map _ hrow (Finset.mem_range.mp hk), Amplitude.toComplex_mul,
      mul_right_comm]
  have hread : ((u.scale z).apply v).getD i .zero = (u.apply v).getD i .zero * z := by
    apply Amplitude.toComplex_injective
    rw [toComplex_apply (show i < (u.scale z).rows from hrow), Amplitude.toComplex_mul,
      toComplex_apply hrow, Finset.sum_mul]
    exact Finset.sum_congr rfl hentries
  have hi'' : i < (u.apply v).size := by simpa using hi'
  simpa [Array.getD, hi, hi''] using hread

/-- A factor of modulus one cancels between an operator and its adjoint. -/
theorem mul_mul_dagger_scale {u m : Operator ℝ} {z : Amplitude ℝ}
    (hz : z.toComplex * star z.toComplex = 1) (hcols : u.cols = m.rows) (hsquare : m.cols = m.rows) :
    ((u.scale z).mul m).mul (u.scale z).dagger = (u.mul m).mul u.dagger := by
  have hu : u.Represents (u.toMatrix u.rows m.rows) := represents_toMatrix rfl hcols
  have hm : m.Represents (m.toMatrix m.rows m.rows) := represents_toMatrix rfl hsquare
  have hscaled := ((hu.scale z).mul hm).mul (hu.scale z).dagger
  rw [Matrix.conjTranspose_smul, Matrix.smul_mul, Matrix.smul_mul, Matrix.mul_smul, smul_smul, hz,
    one_smul] at hscaled
  exact hscaled.unique ((hu.mul hm).mul hu.dagger)

end Operator

namespace State

/-- A state with a phase more. A density matrix has none. -/
noncomputable def rephase (φ : ℝ) : State ℝ → State ℝ
  | ket v => .ket (v.map (· * Amplitude.ofPhase φ))
  | density m => .density m

theorem probabilities_rephase (φ : ℝ) (s : State ℝ) : (s.rephase φ).probabilities = s.probabilities := by
  cases s with
  | ket v =>
    have hterm : ∀ z : Amplitude ℝ, (z * Amplitude.ofPhase φ).normSq = z.normSq := fun z => by
      rw [Amplitude.normSq_real, Amplitude.toComplex_mul, map_mul, Amplitude.normSq_ofPhase, mul_one,
        Amplitude.normSq_real]
    simp [rephase, probabilities, Function.comp_def, hterm]
  | density m => rfl

/-- An operator with a phase evolves every state as the operator without it, up to the phase. -/
theorem evolve_scale_ofPhase (s : State ℝ) (u : Operator ℝ) (φ : ℝ) :
    s.evolve (u.scale (.ofPhase φ)) = (s.evolve u).map (rephase φ) := by
  unfold evolve
  rw [Result.map_bind]
  change (s.checkDim u.rows >>= _) = _
  cases hcheck : s.checkDim u.rows with
  | error e => rfl
  | ok _ =>
    obtain ⟨hsquare, hrows⟩ := checkDim_eq_ok.mp hcheck
    rw [Result.ok_bind, Result.ok_bind]
    change (if u.cols ≠ s.dim then _ else _) = _
    split_ifs with hcols
    · rfl
    · cases s with
      | ket v => exact congrArg (fun w => Except.ok (ket w)) (Operator.apply_scale u _ v)
      | density m =>
        have hm : m.cols = m.rows := by simpa [isSquare, Operator.isSquare, eq_comm] using hsquare
        exact congrArg (fun m => Except.ok (density m)) (Operator.mul_mul_dagger_scale
          (Amplitude.ofPhase_mul_star φ) (not_not.mp hcols) hm)

end State

namespace AnalyticalEvolution

/-- An evolution with a phase more. -/
noncomputable def rephase (φ : ℝ) (e : AnalyticalEvolution ℝ) : AnalyticalEvolution ℝ :=
  ⟨e.propagators, φ, e.total.scale (.ofPhase φ), e.finalState.rephase φ⟩

/-- An evolution with a phase fails as the evolution without it does, and otherwise differs from it by
the phase. -/
theorem computeWith_phase (propagate : Propagation ℝ) (controls : List (ControlOperator ℝ))
    (t : Timeline ℝ) (initial : State ℝ) (φ : ℝ) :
    computeWith propagate controls t initial φ =
      (computeWith propagate controls t initial 0).map (rephase φ) := by
  unfold computeWith
  split_ifs
  · rfl
  · rw [Result.map_bind]
    refine bind_congr fun _ => ?_
    split
    · rfl
    · rw [Result.map_bind]
      refine bind_congr fun _ => ?_
      rw [Result.map_bind]
      refine bind_congr fun us => ?_
      have htotal : (timeOrdered initial.dim us).scale (.ofPhase φ) =
          ((timeOrdered initial.dim us).scale (.ofPhase 0)).scale (.ofPhase φ) := by
        rw [Operator.scale_scale, Amplitude.ofPhase_zero_mul]
      simp only
      rw [htotal, State.evolve_scale_ofPhase]
      cases initial.evolve ((timeOrdered initial.dim us).scale (.ofPhase 0)) <;> rfl

end AnalyticalEvolution
end QubitPulse
