import QubitPulse.Proofs.Exact.Unitary

/-!
# Vectors and their density matrices

A vector has a density matrix, the product of the vector and its conjugate. What is done to the vector
can as well be done to the matrix: both are evolved alike, give the same probabilities and the same
fidelity to a target, and refuse the same operators and targets.
-/
namespace QubitPulse

open Matrix

namespace Amplitude

/-- The complex vector that an array stores. -/
noncomputable def vector (n : ℕ) (v : Array (Amplitude ℝ)) : Fin n → ℂ :=
  fun i => (v.getD i .zero).toComplex

@[simp] theorem toComplex_conj (z : Amplitude ℝ) : z.conj.toComplex = star z.toComplex := rfl

theorem toComplex_sum (zs : List (Amplitude ℝ)) : (sum zs).toComplex = (zs.map toComplex).sum := by
  have hfold : ∀ start : Amplitude ℝ,
      (zs.foldl add start).toComplex = start.toComplex + (zs.map toComplex).sum := by
    induction zs with
    | nil => simp
    | cons z zs ih =>
      intro start
      rw [List.foldl_cons, ih, List.map_cons, List.sum_cons, ← add_assoc]
      rfl
  exact (hfold zero).trans (zero_add _)

end Amplitude

open Amplitude (vector)

namespace Operator

variable {v : Array (Amplitude ℝ)} {u : Operator ℝ} {n : ℕ}

theorem represents_outer (hv : v.size = n) :
    (State.outer v).Represents (vecMulVec (vector n v) (star (vector n v))) := by
  subst hv
  exact represents_ofFn fun i j _ _ => Amplitude.toComplex_mul _ _

/-- The density matrix of a vector under an operator. -/
theorem outer_apply (hrows : u.rows = n) (hcols : u.cols = n) (hv : v.size = n) :
    State.outer (u.apply v) = (u.mul (State.outer v)).mul u.dagger := by
  have hu : u.Represents (u.toMatrix n n) := represents_toMatrix hrows hcols
  have hsize : (u.apply v).size = n := by simp [Operator.apply, hrows]
  have happly : vector n (u.apply v) = u.toMatrix n n *ᵥ vector n v := toComplex_apply_eq_mulVec hu v
  have hleft := represents_outer hsize
  rw [happly, star_mulVec, ← vecMulVec_mul, ← mul_vecMulVec] at hleft
  exact hleft.unique ((hu.mul (represents_outer hv)).mul hu.dagger)

end Operator

namespace State

variable {v w target : Array (Amplitude ℝ)} {n : ℕ}

/-- A state in the form of a density matrix. -/
noncomputable def mixed (s : State ℝ) : State ℝ := density s.toDensity

/-! ## Probabilities and fidelities -/

theorem probabilities_mixed (v : Array (Amplitude ℝ)) :
    (ket v).mixed.probabilities = (ket v).probabilities := by
  refine List.ext_getElem (by simp [mixed, probabilities, toDensity, outer]) fun i hi hi' => ?_
  have hrow : i < v.size := by simpa [probabilities] using hi'
  have hentry : (Operator.entry (outer v) i i).re = v[i].normSq := by
    rw [outer, Operator.entry_ofFn _ hrow hrow, Amplitude.normSq_real]
    have hread : v.getD i .zero = v[i] := by simp [Array.getD, hrow]
    rw [hread]
    change (v[i] * v[i].conj).toComplex.re = _
    rw [Amplitude.toComplex_mul, Amplitude.toComplex_conj, Complex.star_def, Complex.mul_conj,
      Complex.ofReal_re]
  simpa [mixed, probabilities, toDensity] using hentry

/-- The inner product of stored vectors is that of the vectors. -/
theorem toComplex_inner (hv : v.size = n) (hw : w.size = n) :
    (inner v.toList w.toList).toComplex = star (vector n v) ⬝ᵥ vector n w := by
  have hterms : ((v.toList.zip w.toList).map fun p => p.1.conj * p.2).map Amplitude.toComplex =
      List.ofFn fun i : Fin n => star (vector n v) i * vector n w i := by
    refine List.ext_getElem (by simp [hv, hw]) fun i hi hi' => ?_
    have hin : i < n := by simpa using hi'
    simp [vector, Array.getD, hv, hw]
  rw [inner, Amplitude.toComplex_sum, hterms, List.sum_ofFn]
  rfl

/-- The expectation of a density matrix in a target vector. -/
theorem toComplex_inner_apply {a : Operator ℝ} {A : Matrix (Fin n) (Fin n) ℂ} (ha : a.Represents A)
    (ht : target.size = n) :
    (inner target.toList (a.apply target).toList).toComplex =
      star (vector n target) ⬝ᵥ (A *ᵥ vector n target) := by
  have hsize : (a.apply target).size = n := by simp [Operator.apply, ha.rows]
  rw [toComplex_inner ht hsize]
  exact congrArg _ (Operator.toComplex_apply_eq_mulVec ha target)

/-- The expectation of the density matrix of a vector is the squared overlap with the vector. -/
theorem inner_outer_apply (hv : v.size = n) (ht : target.size = n) :
    (inner target.toList ((outer v).apply target).toList).re =
      (inner target.toList v.toList).normSq := by
  set V := vector n v
  set T := vector n target
  have hoverlap : star T ⬝ᵥ (vecMulVec V (star V) *ᵥ T) = Complex.normSq (star T ⬝ᵥ V) := by
    rw [vecMulVec_mulVec, op_smul_eq_smul, dotProduct_smul, star_dotProduct V T, smul_eq_mul,
      Complex.normSq_eq_conj_mul_self]
    rfl
  rw [Amplitude.normSq_real, toComplex_inner ht hv]
  change (inner target.toList ((outer v).apply target).toList).toComplex.re = _
  rw [toComplex_inner_apply (Operator.represents_outer hv) ht, hoverlap, Complex.ofReal_re]

/-! ## Dimensions -/

section Answers

variable {β : Type}

/-- A state answers if it has the dimension that is asked for, and otherwise names both dimensions. -/
structure AnswersAt (s : State ℝ) (dim : ℕ) (answer : Result ℝ β) : Prop where
  succeeds : s.Fits dim → ∃ x, answer = .ok x
  refuses : ¬s.Fits dim → answer = .error (.dimensionMismatch dim s.dim)

theorem answersAt_evolve (s : State ℝ) {u : Operator ℝ} (hu : u.isSquare = true) :
    s.AnswersAt u.rows (s.evolve u) where
  succeeds h := by
    obtain ⟨hsquare, hdim⟩ := checkDim_eq_ok.mp (checkDim_eq_ok_iff_fits.mpr h)
    have hcols : u.rows = u.cols := of_decide_eq_true hu
    exact exists_evolve hsquare hdim.symm (hcols.symm.trans hdim.symm)
  refuses h := by
    unfold evolve
    rw [checkDim_of_not_fits h]
    rfl

theorem answersAt_fidelity (s : State ℝ) (target : Array (Amplitude ℝ)) :
    s.AnswersAt target.size (s.fidelity target) where
  succeeds h := by
    unfold fidelity
    rw [checkDim_eq_ok_iff_fits.mpr h]
    cases s with
    | ket v => exact ⟨_, rfl⟩
    | density m => exact ⟨_, rfl⟩
  refuses h := by
    unfold fidelity
    rw [checkDim_of_not_fits h]
    rfl

end Answers

theorem fits_mixed {dim : ℕ} : (ket v).mixed.Fits dim ↔ (ket v).Fits dim := and_self_iff

theorem checkDim_mixed (v : Array (Amplitude ℝ)) (dim : ℕ) :
    (ket v).mixed.checkDim dim = (ket v).checkDim dim := by
  by_cases h : (ket v).Fits dim
  · rw [checkDim_eq_ok_iff_fits.mpr h, checkDim_eq_ok_iff_fits.mpr (fits_mixed.mpr h)]
  · rw [checkDim_of_not_fits h, checkDim_of_not_fits (mt fits_mixed.mp h)]
    rfl

theorem fidelity_mixed (v target : Array (Amplitude ℝ)) :
    (ket v).mixed.fidelity target = (ket v).fidelity target := by
  unfold fidelity
  rw [checkDim_mixed]
  cases hcheck : (ket v).checkDim target.size with
  | error e => rfl
  | ok _ =>
    have hsize : v.size = target.size := (checkDim_eq_ok.mp hcheck).2
    exact congrArg Except.ok (inner_outer_apply hsize rfl)

/-! ## Evolution -/

/-- Both forms of a vector are evolved alike, and refuse the same operators. -/
theorem evolve_mixed (v : Array (Amplitude ℝ)) {u : Operator ℝ} (hu : u.isSquare = true) :
    (ket v).mixed.evolve u = ((ket v).evolve u).map mixed := by
  have hcols : u.rows = u.cols := of_decide_eq_true hu
  by_cases h : v.size = u.rows
  · have hket : (ket v).evolve u = .ok ((ket v).under u) :=
      evolve_eq_ok.mpr ⟨rfl, h.symm, hcols.symm.trans h.symm, rfl⟩
    have hmixed : (ket v).mixed.evolve u = .ok ((ket v).mixed.under u) :=
      evolve_eq_ok.mpr ⟨decide_eq_true rfl, h.symm, hcols.symm.trans h.symm, rfl⟩
    rw [hket, hmixed]
    exact congrArg (fun m => Except.ok (density m)) (Operator.outer_apply rfl hcols.symm h).symm
  · rw [((ket v).answersAt_evolve hu).refuses h,
      ((ket v).mixed.answersAt_evolve hu).refuses (mt fits_mixed.mp h)]
    rfl

/-- Evolving by one operator and then by another is evolving by their product, also where the state is
refused. -/
theorem evolve_bind_evolve (s : State ℝ) {u w : Operator ℝ} (hu : u.isSquare = true)
    (hw : w.isSquare = true) (hrows : w.rows = u.rows) :
    (s.evolve u >>= fun t => t.evolve w) = s.evolve (w.mul u) := by
  have hwcols : w.cols = u.rows := (of_decide_eq_true hw).symm.trans hrows
  have hproduct : (w.mul u).isSquare = true :=
    decide_eq_true (hrows.trans (of_decide_eq_true hu))
  by_cases h : s.Fits u.rows
  · obtain ⟨t, ht⟩ := (s.answersAt_evolve hu).succeeds h
    rw [ht, Result.ok_bind]
    exact evolve_evolve ht hrows hwcols
  · have hrefused := (s.answersAt_evolve hproduct).refuses (hrows ▸ h)
    rw [(s.answersAt_evolve hu).refuses h, hrefused, show (w.mul u).rows = u.rows from hrows]
    rfl

/-- A vector and its density matrix agree in all that is asked of a state, and evolving a state of either
form twice is evolving it once by the product. An operator or a target of another dimension is refused
by both forms, with the two dimensions. -/
theorem pure_and_mixed_forms_agree {u w : Operator ℝ} (hu : u.isSquare = true)
    (hw : w.isSquare = true) (hrows : w.rows = u.rows) :
    (∀ v : Array (Amplitude ℝ),
      (ket v).mixed.evolve u = ((ket v).evolve u).map mixed ∧
        (ket v).mixed.probabilities = (ket v).probabilities ∧
        ∀ target, (ket v).mixed.fidelity target = (ket v).fidelity target) ∧
      ∀ s : State ℝ, (s.evolve u >>= fun t => t.evolve w) = s.evolve (w.mul u) ∧
        s.AnswersAt u.rows (s.evolve u) ∧
        ∀ target, s.AnswersAt target.size (s.fidelity target) :=
  ⟨fun v => ⟨evolve_mixed v hu, probabilities_mixed v, fidelity_mixed v⟩,
    fun s => ⟨s.evolve_bind_evolve hu hw hrows, s.answersAt_evolve hu, s.answersAt_fidelity⟩⟩

/-- A shear, which is not unitary, and the vector `|0⟩ + i|1⟩`. -/
theorem pure_and_mixed_forms_agree_under_shear :
    let shear : Operator ℝ := .two .one .i .zero .one
    let v : Array (Amplitude ℝ) := #[.one, .i]
    shear.isSquare = true ∧ (Operator.sigmaY : Operator ℝ).isSquare = true ∧
      (Operator.sigmaY : Operator ℝ).rows = shear.rows ∧
      (ket v).mixed.evolve shear = ((ket v).evolve shear).map mixed ∧
      (∃ t, (ket v).evolve shear = .ok t) ∧
      ((ket v).evolve shear >>= fun t => t.evolve .sigmaY) =
        (ket v).evolve (Operator.sigmaY.mul shear) := by
  intro shear v
  have hshear : shear.isSquare = true := rfl
  have hy : (Operator.sigmaY : Operator ℝ).isSquare = true := rfl
  obtain ⟨hpure, hboth⟩ := pure_and_mixed_forms_agree hshear hy rfl
  obtain ⟨htwice, hanswers, -⟩ := hboth (ket v)
  exact ⟨hshear, hy, rfl, (hpure v).1, hanswers.succeeds rfl, htwice⟩

end State
end QubitPulse
