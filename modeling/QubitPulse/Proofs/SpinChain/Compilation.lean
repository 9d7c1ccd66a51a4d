import Mathlib.Tactic.IntervalCases
import QubitPulse.Proofs.Evolution.Analytical
import QubitPulse.Proofs.Exact.Evolution
import QubitPulse.Proofs.SpinChain.Hamiltonians

/-!
# Timelines of a chain perform their gates

Along the timeline of native gates, every segment evolves by the textbook matrix of its gate, and the
whole timeline by their product.
-/
namespace QubitPulse

open Matrix NormedSpace

theorem Storage.reserve_registerDim {β : Type} {n : ℕ} (h : n ≤ SpinChain.mostQubits) :
    (reserve 2 [registerDim n, registerDim n] : Result β Unit) = .ok () := by
  unfold SpinChain.mostQubits at h
  interval_cases n <;> rfl

theorem Timeline.durations_steps (numControls : ℕ) (segments : List (ℝ × List ℝ)) :
    (steps numControls segments).durations = segments.map Prod.fst :=
  differences_accumulate _ _

/-- The total of an evolution stores the product of the matrices of its segments, times the phase. -/
theorem AnalyticalEvolution.totalOf_actsAs {n : ℕ} {us : List (Operator ℝ)}
    {Us : List (Matrix (Basis n) (Basis n) ℂ)} (h : List.Forall₂ Operator.ActsAs us Us) (phase : ℝ) :
    (totalOf (registerDim n) phase us).ActsAs
      (Complex.exp (phase * Complex.I) • Us.reverse.prod) := by
  rw [← Amplitude.toComplex_ofPhase]
  exact (timeOrdered_actsAs h).scale (Amplitude.ofPhase phase)

namespace SpinChain

variable {n : ℕ} {couplings : List (ℕ × ℕ)} {controls : List (ControlOperator ℝ)}
  {segments : List (ℝ × List ℝ)} {gates : List (Gate ℝ)} {initial : State ℝ}

/-- The Hamiltonian of a column with a single amplitude is a multiple of the control that it drives. -/
theorem weightedSum_columnOf (hcontrols : ControlsAct controls (controlMatrices n couplings)) {row : ℕ}
    {H : Matrix (Basis n) (Basis n) ℂ} (hH : (controlMatrices n couplings)[row]? = some H)
    (amplitude : ℝ) :
    (EvolutionProblem.weightedSum (registerDim n) (controls.zip
      (PulseBuilder.columnOf controls.length [(row, amplitude)]))).ActsAs ((amplitude : ℂ) • H) := by
  rw [← sum_zip_set hH amplitude, ← hcontrols.length_eq]
  exact EvolutionProblem.weightedSum_actsAs hcontrols _

/-- The Hamiltonian of a segment evolves by its gate. -/
theorem hamiltonian_performs (hcontrols : ControlsAct controls (controlMatrices n couplings))
    (hperforms : List.Forall₂ (Performs n controls.length couplings) segments gates)
    (hdim : initial.dim = registerDim n) {k : ℕ} {segment : ℝ × List ℝ} {g : Gate ℝ}
    (hsegment : segments[k]? = some segment) (hgate : gates[k]? = some g) :
    ∃ H, (AnalyticalEvolution.hamiltonian
        ⟨controls, .steps controls.length segments, [], initial⟩ k).ActsAs H ∧
      exp ((-(Complex.I * segment.1)) • H) = g.unitary n := by
  obtain ⟨row, area, hpulse, hrow, duration, amplitude, -, -, harea, rfl⟩ :
      Performs n controls.length couplings segment g := by
    obtain ⟨hk, rfl⟩ := List.getElem?_eq_some_iff.mp hsegment
    obtain ⟨hk', rfl⟩ := List.getElem?_eq_some_iff.mp hgate
    exact hperforms.get hk hk'
  obtain ⟨H, hH, hexp⟩ := exp_of_pulse hpulse
  have hcolumn : (Timeline.steps controls.length segments).segmentCoeffs k =
      some (PulseBuilder.columnOf controls.length [(row, amplitude)]) :=
    Grid.column?_ofColumns (by simp [hsegment]) (by simp [PulseBuilder.columnOf])
  refine ⟨(amplitude : ℂ) • H, ?_, ?_⟩
  · unfold AnalyticalEvolution.hamiltonian EvolutionProblem.segmentHamiltonian?
    simp only [hcolumn, Option.map_some, Option.getD_some, hdim]
    exact weightedSum_columnOf hcontrols hH amplitude
  · rw [smul_smul, ← hexp, ← harea]
    congr 2
    push_cast
    ring

/-- Along steps for the controls of a register, an evolution succeeds if the segments can be propagated
by operators on the register. -/
theorem exists_computeWith {propagate : Propagation ℝ} (hn : n ≤ mostQubits)
    (hcontrols : ∀ c ∈ controls, c.dim = registerDim n)
    (hinitial : initial.checkDim (registerDim n) = .ok ()) {t : Timeline ℝ}
    (hsteps : t.interpolation = .step) (hcount : t.numControls = controls.length)
    {us : List (Operator ℝ)} (hus : AnalyticalEvolution.propagatorsFrom propagate
      ⟨controls, t, [], initial⟩ 0 t.durations = .ok us)
    {phase : ℝ} (hrows : (AnalyticalEvolution.totalOf (registerDim n) phase us).rows = registerDim n)
    (hcols : (AnalyticalEvolution.totalOf (registerDim n) phase us).cols = registerDim n) :
    ∃ final, initial.evolve (AnalyticalEvolution.totalOf (registerDim n) phase us) = .ok final ∧
      AnalyticalEvolution.computeWith propagate controls t initial phase =
        .ok ⟨us, phase, AnalyticalEvolution.totalOf (registerDim n) phase us, final⟩ := by
  obtain ⟨hsquare, hdim⟩ := State.checkDim_eq_ok.mp hinitial
  obtain ⟨final, hfinal⟩ := State.exists_evolve hsquare (hrows.trans hdim.symm) (hcols.trans hdim.symm)
  refine ⟨final, hfinal, AnalyticalEvolution.computeWith_eq_ok.mpr ⟨hsteps,
    if_neg (not_not.mpr hcount), fun c hc => (hcontrols c hc).trans hdim.symm, ?_, us, final, hus,
    hdim ▸ hfinal, hdim ▸ rfl⟩⟩
  rw [hdim]
  exact Storage.reserve_registerDim hn

/-- Exact evolution along the timeline of native gates is the product of their matrices, times the
phase. -/
theorem computeWith_exactPropagator (hn : n ≤ mostQubits)
    (hcontrols : ControlsAct controls (controlMatrices n couplings))
    (hperforms : List.Forall₂ (Performs n controls.length couplings) segments gates)
    (hinitial : initial.checkDim (registerDim n) = .ok ()) (phase : ℝ) :
    ∃ e, AnalyticalEvolution.computeWith Operator.exactPropagator controls
        (.steps controls.length segments) initial phase = .ok e ∧
      e.total.ActsAs (Complex.exp (phase * Complex.I) • Gate.unitaryOf n gates) := by
  obtain ⟨-, hdim⟩ := State.checkDim_eq_ok.mp hinitial
  obtain ⟨us, hus, hacts⟩ : ∃ us, AnalyticalEvolution.propagatorsFrom Operator.exactPropagator
      ⟨controls, .steps controls.length segments, [], initial⟩ 0 (segments.map Prod.fst) = .ok us ∧
      List.Forall₂ Operator.ActsAs us (gates.map (Gate.unitary n)) := by
    refine AnalyticalEvolution.propagatorsFrom_exact ?_ fun i d U hd hU => ?_
    · rw [List.length_map, List.length_map, hperforms.length_eq]
    · rw [List.getElem?_map] at hd hU
      obtain ⟨segment, hsegment, rfl⟩ := Option.map_eq_some_iff.mp hd
      obtain ⟨g, hg, rfl⟩ := Option.map_eq_some_iff.mp hU
      rw [zero_add]
      exact hamiltonian_performs hcontrols hperforms hdim hsegment hg
  have htotal : (AnalyticalEvolution.totalOf (registerDim n) phase us).ActsAs
      (Complex.exp (phase * Complex.I) • Gate.unitaryOf n gates) :=
    AnalyticalEvolution.totalOf_actsAs hacts phase
  rw [← Timeline.durations_steps controls.length] at hus
  obtain ⟨final, -, hcompute⟩ :=
    exists_computeWith hn hcontrols.dim hinitial rfl rfl hus htotal.rows htotal.cols
  exact ⟨_, hcompute, htotal⟩

end SpinChain
end QubitPulse
