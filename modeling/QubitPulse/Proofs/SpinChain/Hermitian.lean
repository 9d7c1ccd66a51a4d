import QubitPulse.Proofs.Evolution.Hamiltonian
import QubitPulse.Proofs.Exact.Unitary
import QubitPulse.Proofs.SpinChain.Compilation

/-!
# Evolution of a chain is unitary

The controls of a chain are Hermitian, and so is every sum of them with real coefficients. So whatever
timeline in steps drives a chain, each of its segments is propagated by a unitary matrix.
-/
namespace QubitPulse

open Matrix NormedSpace

section Embedded

variable {n : ℕ}

theorem conjTranspose_onQubit (q : Fin n) (A : LocalMatrix) : (onQubit q A)ᴴ = onQubit q Aᴴ := by
  ext b c
  simp only [conjTranspose_apply, onQubit, eq_comm (a := c _)]
  split_ifs <;> simp

theorem conjTranspose_onPair (q r : Fin n) (A : PairMatrix) : (onPair q r A)ᴴ = onPair q r Aᴴ := by
  ext b c
  simp only [conjTranspose_apply, onPair, eq_comm (a := c _)]
  split_ifs <;> simp

theorem isHermitian_atQubit {A : LocalMatrix} (h : A.IsHermitian) (q : ℕ) :
    (atQubit n q A).IsHermitian := by
  unfold atQubit
  split_ifs
  · exact (conjTranspose_onQubit _ A).trans (by rw [h.eq])
  · exact isHermitian_one

theorem isHermitian_atPair {A : PairMatrix} (h : A.IsHermitian) (q r : ℕ) :
    (atPair n q r A).IsHermitian := by
  unfold atPair
  split_ifs
  · exact (conjTranspose_onPair _ _ A).trans (by rw [h.eq])
  · exact isHermitian_one

theorem isHermitian_pauliX : pauliX.IsHermitian := by
  ext i j
  fin_cases i <;> fin_cases j <;> simp [pauliX]

theorem isHermitian_pauliY : pauliY.IsHermitian := by
  ext i j
  fin_cases i <;> fin_cases j <;> simp [pauliY]

theorem isHermitian_pauliZ : pauliZ.IsHermitian := by
  ext i j
  fin_cases i <;> fin_cases j <;> simp [pauliZ]

theorem isHermitian_exchangeMatrix : exchangeMatrix.IsHermitian := by
  refine IsHermitian.add ?_ ?_
  · rw [IsHermitian, conjTranspose_kronecker, isHermitian_pauliX.eq]
  · rw [IsHermitian, conjTranspose_kronecker, isHermitian_pauliY.eq]

theorem isHermitian_real_smul {ι : Type*} {H : Matrix ι ι ℂ} (h : H.IsHermitian) (x : ℝ) :
    ((x : ℂ) • H).IsHermitian := by
  rw [IsHermitian, conjTranspose_smul, h.eq]
  simp

theorem isHermitian_sum_zip {Hs : List (Matrix (Basis n) (Basis n) ℂ)} (h : ∀ H ∈ Hs, H.IsHermitian)
    (column : List ℝ) : IsHermitian ((Hs.zip column).map fun p => (p.2 : ℂ) • p.1).sum := by
  have hterms : ∀ M ∈ (Hs.zip column).map fun p => (p.2 : ℂ) • p.1, M.IsHermitian := by
    intro M hM
    obtain ⟨p, hp, rfl⟩ := List.mem_map.mp hM
    exact isHermitian_real_smul (h p.1 (List.of_mem_zip hp).1) p.2
  generalize (Hs.zip column).map (fun p => (p.2 : ℂ) • p.1) = Ms at hterms
  induction Ms with
  | nil => exact isHermitian_zero
  | cons M Ms ih =>
    rw [List.sum_cons]
    exact (hterms M (by simp)).add (ih fun N hN => hterms N (by simp [hN]))

end Embedded

theorem Operator.Represents.hermitian {m : ℕ} {a : Operator ℝ} {M : Matrix (Fin m) (Fin m) ℂ}
    (h : a.Represents M) (hM : M.IsHermitian) : a.Hermitian := by
  obtain ⟨rfl, hcols, h⟩ := h
  have hentry : ∀ i < a.rows, ∀ j < a.cols,
      (a.entry j i).toComplex = (starRingEnd ℂ) (a.entry i j).toComplex := by
    intro i hi j hj
    have hj' : j < a.rows := hj.trans_eq hcols
    have hstar := hM.apply ⟨j, hj'⟩ ⟨i, hi⟩
    rw [← h ⟨j, hj'⟩ ⟨i, hi⟩, ← h ⟨i, hi⟩ ⟨j, hj'⟩] at hstar
    exact hstar.symm
  exact ⟨hcols.symm, fun i hi j hj => decide_eq_true (congrArg Complex.re (hentry i hi j hj)),
    fun i hi j hj => decide_eq_true (congrArg Complex.im (hentry i hi j hj))⟩

namespace EvolutionProblem

/-- A sum adds to an entry those of the controls, whether or not it passes over coefficients of zero. -/
theorem toComplex_entry_foldl {step : Operator ℝ → ControlOperator ℝ × ℝ → Operator ℝ}
    (hstep : Adds step) (terms : List (ControlOperator ℝ × ℝ)) {h : Operator ℝ} {i j : ℕ}
    (hi : i < h.rows) (hj : j < h.cols) :
    ((terms.foldl step h).entry i j).toComplex = (h.entry i j).toComplex +
      (terms.map fun term => (term.2 : ℂ) * (term.1.matrix.entry i j).toComplex).sum := by
  induction terms generalizing h with
  | nil => simp
  | cons term terms ih =>
    obtain ⟨hrows, hcols⟩ := hstep.shape h term
    have hterm : ((step h term).entry i j).toComplex =
        (h.entry i j).toComplex + (term.2 : ℂ) * (term.1.matrix.entry i j).toComplex := by
      rcases hstep h term with hsum | ⟨hzero, hsum⟩
      · rw [hsum, addMultiple, Operator.entry_ofFn _ hi hj]
        simp
      · have hzero : term.2 = 0 := by simpa using hzero
        simp [hsum, hzero]
    rw [List.foldl_cons, ih (hi.trans_eq hrows.symm) (hj.trans_eq hcols.symm), hterm, List.map_cons,
      List.sum_cons, add_assoc]

theorem toComplex_entry_sumOfAll (terms : List (ControlOperator ℝ × ℝ)) {dim i j : ℕ} (hi : i < dim)
    (hj : j < dim) : ((sumOfAll dim terms).entry i j).toComplex =
      (terms.map fun term => (term.2 : ℂ) * (term.1.matrix.entry i j).toComplex).sum := by
  refine (toComplex_entry_foldl adds_addMultiple terms hi hj).trans ?_
  rw [Operator.zero, Operator.entry_ofFn _ hi hj]
  simp

/-- To pass over coefficients of zero changes no sum. -/
theorem weightedSum_eq_sumOfAll (dim : ℕ) (terms : List (ControlOperator ℝ × ℝ)) :
    weightedSum dim terms = sumOfAll dim terms := by
  obtain ⟨hrows, hcols⟩ := shape_weightedSum dim terms
  obtain ⟨hrows', hcols'⟩ := shape_sumOfAll dim terms
  refine Operator.ext_of_entry (hrows.trans hrows'.symm) (hcols.trans hcols'.symm) fun i hi j hj => ?_
  have hi : i < dim := hi.trans_eq hrows
  have hj : j < dim := hj.trans_eq hcols
  exact Amplitude.toComplex_injective ((toComplex_entry_foldl adds_addTerm terms hi hj).trans
    (toComplex_entry_foldl adds_addMultiple terms hi hj).symm)

end EvolutionProblem

/-- Unitary propagators have a unitary total, whatever the phase is. -/
theorem AnalyticalEvolution.unitary_totalOf {n : ℕ} {us : List (Operator ℝ)}
    {Us : List (Matrix (Basis n) (Basis n) ℂ)} (h : List.Forall₂ Operator.ActsAs us Us)
    (hUs : ∀ U ∈ Us, U ∈ unitaryGroup (Basis n) ℂ) (phase : ℝ) :
    (totalOf (registerDim n) phase us).Unitary (registerDim n) := by
  have hproduct : Us.reverse.prod ∈ unitaryGroup (Basis n) ℂ :=
    list_prod_mem fun U hU => hUs U (List.mem_reverse.mp hU)
  have hphase : Complex.exp (phase * Complex.I) * star (Complex.exp (phase * Complex.I)) = 1 := by
    rw [Complex.star_def, ← Complex.exp_conj, ← Complex.exp_add]
    simp
  have htotal : Complex.exp (phase * Complex.I) • Us.reverse.prod ∈ unitaryGroup (Basis n) ℂ := by
    rw [mem_unitaryGroup_iff, star_smul, smul_mul_smul_comm, mem_unitaryGroup_iff.mp hproduct, hphase,
      one_smul]
  exact Operator.ActsAs.unitary (totalOf_actsAs h phase) htotal

namespace SpinChain

variable {n : ℕ} {couplings : List (ℕ × ℕ)}

theorem isHermitian_controlMatrices : ∀ H ∈ controlMatrices n couplings, H.IsHermitian :=
  forall_mem_controlMatrices.mpr ⟨fun q _ => isHermitian_atQubit isHermitian_pauliX q,
    fun q _ => isHermitian_atQubit isHermitian_pauliZ q,
    fun p _ => isHermitian_atPair isHermitian_exchangeMatrix p.1 p.2⟩

variable {controls : List (ControlOperator ℝ)} {t : Timeline ℝ} {initial : State ℝ}

/-- Exact propagation along steps for the controls of a chain is by unitary matrices. -/
theorem exists_unitary_propagators (hcontrols : ControlsAct controls (controlMatrices n couplings))
    (ht : t.Stepwise controls.length) (hdim : initial.dim = registerDim n) :
    ∃ us Us, AnalyticalEvolution.propagatorsFrom Operator.exactPropagator
        ⟨controls, t, [], initial⟩ 0 t.durations = .ok us ∧
      List.Forall₂ Operator.ActsAs us Us ∧ ∀ U ∈ Us, U ∈ unitaryGroup (Basis n) ℂ := by
  let H (k : ℕ) : Matrix (Basis n) (Basis n) ℂ :=
    (((controlMatrices n couplings).zip (t.columnAt k)).map fun p => (p.2 : ℂ) • p.1).sum
  let U (k : ℕ) (d : ℝ) : Matrix (Basis n) (Basis n) ℂ := exp ((-(Complex.I * d)) • H k)
  have hH : ∀ k < t.numSegments,
      (AnalyticalEvolution.hamiltonian ⟨controls, t, [], initial⟩ k).ActsAs (H k) := by
    intro k hk
    unfold AnalyticalEvolution.hamiltonian
    rw [EvolutionProblem.segmentHamiltonian?_eq ht hk, Option.getD_some, hdim]
    exact EvolutionProblem.weightedSum_actsAs hcontrols (t.columnAt k)
  have hpropagates : ∀ (k : ℕ) (d : ℝ) V, t.durations[k]? = some d →
      (t.durations.mapIdx U)[k]? = some V →
      ∃ H, (AnalyticalEvolution.hamiltonian ⟨controls, t, [], initial⟩ (0 + k)).ActsAs H ∧
        exp ((-(Complex.I * d)) • H) = V := by
    intro k d V hd hV
    have hk : k < t.numSegments := by
      rw [← t.length_durations]
      exact (List.getElem?_eq_some_iff.mp hd).1
    rw [List.getElem?_mapIdx, hd] at hV
    exact ⟨H k, (zero_add k).symm ▸ hH k hk, Option.some.inj hV⟩
  obtain ⟨us, hus, hacts⟩ := AnalyticalEvolution.propagatorsFrom_exact (by simp) hpropagates
  refine ⟨us, t.durations.mapIdx U, hus, hacts, fun V hV => ?_⟩
  obtain ⟨k, hk, rfl⟩ := List.mem_mapIdx.mp hV
  exact exp_smul_mem_unitaryGroup (isHermitian_sum_zip isHermitian_controlMatrices _) _

/-- The exact evolution along steps for the controls of a chain is unitary, so it keeps the mass of the
state. -/
theorem exists_computeWith_unitary (hn : n ≤ mostQubits)
    (hcontrols : ControlsAct controls (controlMatrices n couplings)) (ht : t.Stepwise controls.length)
    (hinitial : initial.checkDim (registerDim n) = .ok ()) (phase : ℝ) :
    ∃ e, AnalyticalEvolution.computeWith Operator.exactPropagator controls t initial phase = .ok e ∧
      e.total.Unitary (registerDim n) ∧ e.finalState.mass = initial.mass ∧
      e.finalState.probabilities.sum = initial.probabilities.sum := by
  obtain ⟨hsquare, hdim⟩ := State.checkDim_eq_ok.mp hinitial
  obtain ⟨us, Us, hus, hacts, hUs⟩ := exists_unitary_propagators hcontrols ht hdim
  have hunitary := AnalyticalEvolution.unitary_totalOf hacts hUs phase
  obtain ⟨final, hfinal, hcompute⟩ :=
    exists_computeWith hn hcontrols.dim hinitial ht.steps ht.rows hus hunitary.rows hunitary.cols
  obtain ⟨-, -, -, rfl⟩ := State.evolve_eq_ok.mp hfinal
  have hmass := State.mass_under hunitary hsquare hdim
  obtain ⟨-, hsquare'⟩ := State.dim_under initial (AnalyticalEvolution.totalOf (registerDim n) phase us)
  refine ⟨_, hcompute, hunitary, hmass, ?_⟩
  rw [State.sum_probabilities hsquare', State.sum_probabilities hsquare, hmass]

end SpinChain
end QubitPulse
