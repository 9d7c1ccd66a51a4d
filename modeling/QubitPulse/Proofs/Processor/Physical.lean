import QubitPulse.Proofs.Processor.Loading
import QubitPulse.Proofs.Processor.Meaning
import QubitPulse.Proofs.SpinChain.StoredHamiltonian

/-!
# Evolution is physical

A chain is driven by a Hermitian operator on every segment of a timeline in steps, in doubles as well as
in exact arithmetic. Read exactly, it evolves by a unitary operator, and no probability is lost.
-/
namespace QubitPulse

namespace SpinChain

variable {α : Type} [Scalar α] {n : ℕ} {layout : ChainLayout} {given : ChainStrengths α}
  {c : SpinChain α}

theorem stepwise_of_decompose (h : build n layout given = .ok c) {gates : List (Gate α)}
    {t : Timeline α} (ht : c.decomposer.decompose gates = .ok t) : t.Stepwise c.controls.length := by
  have huniform := uniform_of_build h
  rw [Decomposer.decompose_eq huniform, Result.bind_eq_ok] at ht
  obtain ⟨ss, hss, ht⟩ := ht
  have haccepted := fun s hs => PulseBuilder.refusal?_eq_none.mp
    (Decomposer.refusal?_of_segments huniform (appends_of_build h) hss s hs)
  rw [Timeline.ofSegments_eq_ok ht, ← numControls_of_build h]
  exact Timeline.stepwise_steps (fun s hs => (haccepted s hs).2.1) fun s hs => (haccepted s hs).2.2

end SpinChain

namespace Processor

/-- The timeline in steps that a processor stores when it accepts it, or when it loads a circuit. -/
inductive StoresSteps {δ α ρ : Type} [Device δ α ρ] [Scalar α] (p q : Processor δ α)
    (t : Timeline α) : Prop
  | given (accepted : p.setTimeline t = .ok q) (steps : t.interpolation = .step)
  | compiled (c : Circuit α) (load : p.load c = .ok q) (stored : q.timeline = some t)

section Stored

variable {α : Type} [Scalar α] [ScalarText α] {n : ℕ} {layout : ChainLayout}
  {given : ChainStrengths α} {p q : Processor (SpinChain α) α} {t : Timeline α}

theorem StoresSteps.stepwise (hbuild : SpinChain.build n layout given = .ok p.device)
    (h : p.StoresSteps q t) : SpinChain.build n layout given = .ok q.device ∧
      q.timeline = some t ∧ t.Stepwise q.device.controls.length := by
  cases h with
  | given accepted steps =>
    obtain ⟨hvalid, hrows, rfl⟩ := setTimeline_eq_ok.mp accepted
    have hstepwise := Timeline.stepwise_of_validate hvalid steps
    rw [hrows] at hstepwise
    exact ⟨hbuild, rfl, hstepwise⟩
  | compiled c load stored =>
    obtain ⟨native, t', -, hdecompose, rfl⟩ := load_eq_ok.mp load
    obtain rfl : t' = t := Option.some.inj stored
    exact ⟨hbuild, rfl, SpinChain.stepwise_of_decompose hbuild hdecompose⟩

end Stored

/-- Read exactly, the sum of all controls at a segment is the linear combination with the stored
coefficients. -/
theorem toComplex_entry_sumOfAll_columnAt {controls : List (ControlOperator ℝ)} {t : Timeline ℝ}
    (ht : t.Stepwise controls.length) (k : ℕ) {dim i j : ℕ} (hi : i < dim) (hj : j < dim) :
    ((EvolutionProblem.sumOfAll dim (controls.zip (t.columnAt k))).entry i j).toComplex =
      ∑ m : Fin controls.length,
        (t.coeffs.getD m k 0 : ℂ) * (controls[m].matrix.entry i j).toComplex := by
  have hzip : controls.zip (t.columnAt k) =
      (List.finRange controls.length).map fun (m : Fin controls.length) =>
        (controls[m], t.coeffs.getD m k 0) := by
    unfold Timeline.columnAt
    rw [ht.rows]
    refine List.ext_getElem (by simp) fun m hm hm' => ?_
    simp
  rw [EvolutionProblem.toComplex_entry_sumOfAll _ hi hj, hzip, List.map_map, Fin.sum_univ_def]
  rfl

/-- Whatever timeline in steps a chain is given or loads, every segment is driven by the sum of all
controls, each times its coefficient, and this sum is Hermitian. That holds of the doubles that are
stored, and of exact arithmetic. In exact arithmetic the evolution succeeds from every state of the
register, its total is unitary, and the squared length of a vector, the trace of a density matrix and the
sum of the probabilities stay what they were. -/
theorem steps_evolve_physically :
    (∀ {n : ℕ} {layout : ChainLayout} {given : ChainStrengths Float}
        {p q : Processor (SpinChain Float) Float} {t : Timeline Float},
      SpinChain.build n layout given = .ok p.device → p.StoresSteps q t →
      ∀ (ops : List (Operator Float)) (initial : State Float), initial.Fits (2 ^ n) →
        EvolutionProblem.HermitianSums ⟨q.device.controls, t, ops, initial⟩) ∧
    ∀ [ScalarText ℝ] {n : ℕ} {layout : ChainLayout} {given : ChainStrengths ℝ}
        {p q : Processor (SpinChain ℝ) ℝ} {t : Timeline ℝ},
      SpinChain.build n layout given = .ok p.device → p.StoresSteps q t →
      ∀ initial : State ℝ, initial.Fits (2 ^ n) →
        (∀ ops, EvolutionProblem.HermitianSums ⟨q.device.controls, t, ops, initial⟩) ∧
        (∀ k < t.numSegments, ∀ i < 2 ^ n, ∀ j < 2 ^ n,
          ((EvolutionProblem.sumOfAll (2 ^ n) (q.device.controls.zip (t.columnAt k))).entry i
              j).toComplex =
            ∑ m : Fin q.device.controls.length,
              (t.coeffs.getD m k 0 : ℂ) * (q.device.controls[m].matrix.entry i j).toComplex) ∧
        ∃ e, q.evolveAnalyticallyWith Operator.exactPropagator initial = .ok e ∧
          e.total.Unitary (2 ^ n) ∧ e.finalState.mass = initial.mass ∧
          e.finalState.probabilities.sum = initial.probabilities.sum := by
  constructor
  · intro n layout given p q t hbuild hstores ops initial hinitial k hk
    obtain ⟨hbuild, -, hsteps⟩ := hstores.stepwise hbuild
    obtain ⟨-, hdim⟩ := State.checkDim_eq_ok.mp (State.checkDim_eq_ok_iff_fits.mpr hinitial)
    dsimp only at hk ⊢
    rw [EvolutionProblem.segmentHamiltonian?_eq hsteps hk, hdim]
    exact ⟨_, rfl, SpinChain.weightedSum_of_build hbuild (hsteps.finite_columnAt hk)⟩
  · intro _ n layout given p q t hbuild hstores initial hinitial
    obtain ⟨hbuild, htimeline, hsteps⟩ := hstores.stepwise hbuild
    have hcheck : initial.checkDim (registerDim n) = .ok () :=
      State.checkDim_eq_ok_iff_fits.mpr hinitial
    obtain ⟨-, hdim⟩ := State.checkDim_eq_ok.mp hcheck
    have hcontrols := SpinChain.controlsAct_of_build hbuild
    obtain ⟨-, hn, -⟩ := SpinChain.build_eq_ok.mp hbuild
    refine ⟨fun ops k hk => ?_, fun k hk i hi j hj => ?_, ?_⟩
    · dsimp only at hk ⊢
      rw [EvolutionProblem.segmentHamiltonian?_eq hsteps hk, hdim]
      refine ⟨_, rfl, EvolutionProblem.weightedSum_eq_sumOfAll _ _, ?_⟩
      have hsum := EvolutionProblem.weightedSum_actsAs hcontrols (t.columnAt k)
      exact Operator.Represents.hermitian hsum
        ((isHermitian_sum_zip SpinChain.isHermitian_controlMatrices _).submatrix _)
    · exact toComplex_entry_sumOfAll_columnAt hsteps k hi hj
    · obtain ⟨e, he, hphysical⟩ :=
        SpinChain.exists_computeWith_unitary hn hcontrols hsteps hcheck q.globalPhase
      refine ⟨e, ?_, hphysical⟩
      unfold evolveAnalyticallyWith storedTimeline
      rw [htimeline, numQubits_of_build hbuild, Result.ok_bind, hcheck]
      exact he

/-- In doubles a timeline of two segments on two qubits, one control of which is off; in exact arithmetic a
circuit of two gates on them. -/
theorem steps_evolve_physically_on_chain_of_two :
    (∃ (chain : SpinChain Float) (p q : Processor (SpinChain Float) Float) (t : Timeline Float),
      SpinChain.build 2 .linear .default = .ok chain ∧ ideal chain = .ok p ∧
      t = .steps 5 [(1.0, [0.5, 0.0, 0.25, 1.5, 1.0]), (2.0, [0.1, 0.0, 0.7, 0.2, 3.0])] ∧
      p.setTimeline t = .ok q ∧
      EvolutionProblem.HermitianSums ⟨chain.controls, t, [], .basisKet 4 0⟩) ∧
    ∃ (_ : ScalarText ℝ) (chain : SpinChain ℝ) (p q : Processor (SpinChain ℝ) ℝ)
      (e : AnalyticalEvolution ℝ), SpinChain.build 2 .linear .default = .ok chain ∧
      ideal chain = .ok p ∧ p.load ⟨2, [.h 0, .iSwap 0 1], none⟩ = .ok q ∧
      q.evolveAnalyticallyWith Operator.exactPropagator (.basisKet 4 0) = .ok e ∧
      e.total.Unitary 4 ∧
      e.finalState.probabilities.sum = (State.basisKet 4 0 : State ℝ).probabilities.sum := by
  obtain ⟨hdoubles, hexact⟩ := steps_evolve_physically
  constructor
  · let t : Timeline Float :=
      .steps 5 [(1.0, [0.5, 0.0, 0.25, 1.5, 1.0]), (2.0, [0.1, 0.0, 0.7, 0.2, 3.0])]
    have hrun : (do
        let chain ← SpinChain.build 2 .linear .default
        let p ← ideal chain
        let q ← p.setTimeline t
        return q.timeline.isSome) = (.ok true : Result Float Bool) := by
      decide +kernel
    obtain ⟨chain, hchain, hrun⟩ := Result.bind_eq_ok.mp hrun
    obtain ⟨p, hp, hrun⟩ := Result.bind_eq_ok.mp hrun
    obtain ⟨q, hq, -⟩ := Result.bind_eq_ok.mp hrun
    have hdevice : p.device = chain := (new_eq_ok hp).2.2.2.2
    obtain ⟨-, -, rfl⟩ := setTimeline_eq_ok.mp hq
    subst hdevice
    exact ⟨p.device, p, _, t, hchain, hp, rfl, hq,
      hdoubles hchain (.given hq rfl) [] (.basisKet 4 0) rfl⟩
  · let text : ScalarText ℝ :=
      ⟨fun _ => "", fun _ => "", fun _ => "", fun _ => none, fun _ => none⟩
    obtain ⟨chain, hchain⟩ := SpinChain.exists_build_default .linear two_ne_zero (by decide)
    obtain ⟨p, hp, rfl, -⟩ := exists_ideal hchain
    obtain ⟨q, hq⟩ : ∃ q, p.load ⟨2, [.h 0, .iSwap 0 1], none⟩ = .ok q :=
      (exists_load_iff hchain).mpr (Circuit.refusal?_eq_none.mp rfl)
    obtain ⟨native, t, -, -, rfl⟩ := load_eq_ok.mp hq
    obtain ⟨-, -, e, he, hunitary, -, hsum⟩ := hexact hchain (.compiled _ hq rfl) (.basisKet 4 0) rfl
    exact ⟨text, p.device, p, _, e, hchain, hp, hq, he, hunitary, hsum⟩

end Processor
end QubitPulse
