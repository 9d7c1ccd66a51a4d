import QubitPulse.Proofs.Processor.Composition
import QubitPulse.Proofs.SpinChain.Hamiltonians

/-!
# Strengths cancel

A gate is driven harder for a shorter time or more faintly for a longer time, and the product of both
does not depend on the strength. An evolution depends on the products alone, so chains of one size and
layout agree on every circuit, whatever their strengths.
-/
namespace QubitPulse

open AnalyticalEvolution (segmentPropagator)

/-- A segment drives a single control, for this product of amplitude and duration, and leaves all others
at zero. -/
def Timeline.DrivesAlone (t : Timeline ℝ) (k row : ℕ) (area : ℝ) : Prop :=
  row < t.numControls ∧ ∃ duration amplitude, t.durations[k]? = some duration ∧
    t.segmentCoeffs k = some ((List.replicate t.numControls 0).set row amplitude) ∧
    amplitude ≠ 0 ∧ amplitude * duration = area

namespace SpinChain

variable {n numControls : ℕ} {couplings : List (ℕ × ℕ)} {segments segments' : List (ℝ × List ℝ)}
  {gates : List (Gate ℝ)}

/-- The segments of gates perform them. -/
theorem performs_segments {layout : ChainLayout} {given : ChainStrengths ℝ} {chain : SpinChain ℝ}
    (hbuild : build n layout given = .ok chain) (hgates : ∀ g ∈ gates, Gate.OnRegister n g)
    (h : chain.decomposer.segments gates = .ok segments) :
    List.Forall₂ (Performs n chain.controls.length (layout.couplings n)) segments gates := by
  have huniform := uniform_of_build hbuild
  obtain ⟨-, -, strengths, controls, hstrengths, -, rfl⟩ := build_eq_ok.mp hbuild
  have hnew : (PulseBuilder.new controls.length : PulseBuilder ℝ).numControls = controls.length := rfl
  have hfold := Decomposer.foldlM_appendGate huniform gates hnew
  rw [h] at hfold
  obtain ⟨-, segments', hsegments, hperforms⟩ :=
    performs_foldlM (ChainStrengths.drives_normalize hstrengths).positive hgates hnew hfold
  obtain rfl : segments = segments' := by
    simpa [PulseBuilder.segments, PulseBuilder.new] using hsegments
  exact hperforms

theorem drivesAlone_steps (h : List.Forall₂ (Performs n numControls couplings) segments gates) {k : ℕ}
    {g : Gate ℝ} (hg : gates[k]? = some g) : ∃ row area, Pulse n couplings g row area ∧
      (Timeline.steps numControls segments).DrivesAlone k row area := by
  obtain ⟨hk, rfl⟩ := List.getElem?_eq_some_iff.mp hg
  have hk' : k < segments.length := h.length_eq ▸ hk
  obtain ⟨row, area, hpulse, hrow, duration, amplitude, -, hne, harea, hsegment⟩ := h.get hk' hk
  have hsegment : segments[k] = (duration, PulseBuilder.columnOf numControls [(row, amplitude)]) :=
    hsegment
  have hcolumn : (Timeline.steps numControls segments).segmentCoeffs k =
      some (PulseBuilder.columnOf numControls [(row, amplitude)]) :=
    Grid.column?_ofColumns (by simp [hk', hsegment]) (by simp [PulseBuilder.columnOf])
  refine ⟨row, area, hpulse, hrow, duration, amplitude, ?_, hcolumn, hne, (mul_comm _ _).trans harea⟩
  simp [Timeline.durations_steps, hk', hsegment]

variable {controls : List (ControlOperator ℝ)}

/-- The Hamiltonian of a segment, scaled by its duration, depends on the area of its pulse alone. -/
theorem segmentPropagator_of_performs (hcontrols : ControlsAct controls (controlMatrices n couplings))
    {s s' : ℝ × List ℝ} {g : Gate ℝ} (h : Performs n controls.length couplings s g)
    (h' : Performs n controls.length couplings s' g) :
    segmentPropagator Operator.propagator controls (registerDim n) s =
      segmentPropagator Operator.propagator controls (registerDim n) s' := by
  obtain ⟨row, area, hpulse, -, d, x, -, -, harea, rfl⟩ := h
  obtain ⟨row', area', hpulse', -, d', x', -, -, harea', rfl⟩ := h'
  obtain ⟨rfl, rfl⟩ := hpulse.unique hpulse'
  obtain ⟨H, hH, -⟩ := exp_of_pulse hpulse
  have hgenerator : ∀ d x : ℝ, d * x = area → ((EvolutionProblem.weightedSum (registerDim n)
      (controls.zip (PulseBuilder.columnOf controls.length [(row, x)]))).scale ⟨0, -d⟩).ActsAs
        ((-(Complex.I * area)) • H) := by
    intro d x hdx
    have hfactor : (Amplitude.mk 0 (-d)).toComplex * x = -(Complex.I * area) := by
      rw [← hdx]
      refine Complex.ext ?_ ?_ <;> simp [Amplitude.toComplex]
    have hscaled := (weightedSum_columnOf hcontrols hH x).scale ⟨0, -d⟩
    rwa [smul_smul, hfactor] at hscaled
  exact congrArg Operator.exp ((hgenerator d x harea).unique (hgenerator d' x' harea'))

/-- Segments that perform the same gates have the same propagators. -/
theorem propagators_of_performs (hcontrols : ControlsAct controls (controlMatrices n couplings))
    (h : List.Forall₂ (Performs n controls.length couplings) segments gates)
    (h' : List.Forall₂ (Performs n controls.length couplings) segments' gates) :
    segments.mapM (segmentPropagator Operator.propagator controls (registerDim n)) =
      segments'.mapM (segmentPropagator Operator.propagator controls (registerDim n)) := by
  induction h generalizing segments' with
  | nil =>
    cases h'
    rfl
  | cons hs _ ih =>
    cases h' with
    | cons hs' hrest =>
      rw [List.mapM_cons, List.mapM_cons, segmentPropagator_of_performs hcontrols hs hs', ih hrest]

end SpinChain

namespace Processor

section Chains

variable [ScalarText ℝ] {n : ℕ} {layout : ChainLayout} {given₁ given₂ : ChainStrengths ℝ}
  {p p₁ p₂ q₁ q₂ : Processor (SpinChain ℝ) ℝ} {c : Circuit ℝ} {initial : State ℝ}

theorem onRegister_of_load (hbuild : SpinChain.build n layout given₁ = .ok p.device)
    (hload : p.load c = .ok q₁) {native : List (Gate ℝ)} (h : Gate.resolveAll c.gates = .ok native) :
    ∀ g ∈ drivenGates native, Gate.OnRegister n g := by
  have hdrivable := (exists_load_iff hbuild).mp ⟨q₁, hload⟩
  obtain ⟨native', hnative', hforms⟩ := Gate.exists_resolveAll hdrivable.checkGate
  obtain rfl := Except.ok.inj (hnative'.symm.trans h)
  exact fun g hg => hforms g (List.mem_of_mem_filter hg)

/-- A state of another dimension is refused before anything is computed. -/
theorem runAnalytical_misfit (hbuild : SpinChain.build n layout given₁ = .ok p.device)
    (hload : p.load c = .ok q₁) {e : Error ℝ} (h : initial.checkDim (registerDim n) = .error e) :
    (p.runAnalytical initial (some c)).2 = .error e := by
  rw [runAnalytical_of_load hload]
  obtain ⟨native, t, -, -, rfl⟩ := load_eq_ok.mp hload
  rw [← numQubits_of_build hbuild] at h
  change (initial.checkDim (registerDim p.numQubits) >>= _) = _
  rw [h]
  rfl

section TwoChains

variable (hbuild₁ : SpinChain.build n layout given₁ = .ok p₁.device)
  (hbuild₂ : SpinChain.build n layout given₂ = .ok p₂.device)
  (hload₁ : p₁.load c = .ok q₁) (hload₂ : p₂.load c = .ok q₂)
include hbuild₁ hbuild₂ hload₁ hload₂

theorem timelines_free_of_strengths :
    ∃ native t₁ t₂, Gate.resolveAll c.gates = .ok native ∧
      q₁.timeline = some t₁ ∧ q₂.timeline = some t₂ ∧
      t₁.numSegments = (drivenGates native).length ∧ t₂.numSegments = (drivenGates native).length ∧
      ∀ k g, (drivenGates native)[k]? = some g → ∃ row area, Pulse n (layout.couplings n) g row area ∧
        t₁.DrivesAlone k row area ∧ t₂.DrivesAlone k row area := by
  obtain ⟨native, ss₁, hnative, hss₁, -, hq₁⟩ := segments_of_load hbuild₁ hload₁
  obtain ⟨native', ss₂, hnative', hss₂, -, hq₂⟩ := segments_of_load hbuild₂ hload₂
  obtain rfl : native = native' := Except.ok.inj (hnative.symm.trans hnative')
  have hforms := onRegister_of_load hbuild₁ hload₁ hnative
  have hperforms₁ := SpinChain.performs_segments hbuild₁ hforms hss₁
  have hperforms₂ := SpinChain.performs_segments hbuild₂ hforms hss₂
  refine ⟨native, _, _, hnative, congrArg timeline hq₁, congrArg timeline hq₂,
    (Timeline.numSegments_steps _ _).trans hperforms₁.length_eq,
    (Timeline.numSegments_steps _ _).trans hperforms₂.length_eq, fun k g hg => ?_⟩
  obtain ⟨row, area, hpulse, hdrives₁⟩ := SpinChain.drivesAlone_steps hperforms₁ hg
  obtain ⟨row', area', hpulse', hdrives₂⟩ := SpinChain.drivesAlone_steps hperforms₂ hg
  obtain ⟨rfl, rfl⟩ := hpulse.unique hpulse'
  exact ⟨row, area, hpulse, hdrives₁, hdrives₂⟩

/-- Runs on both chains have the same propagators, and the same result if their phases agree. -/
theorem exists_runs (hinitial : initial.checkDim (registerDim n) = .ok ()) :
    ∃ e₁ e₂, (p₁.runAnalytical initial (some c)).2 = .ok e₁ ∧
      (p₂.runAnalytical initial (some c)).2 = .ok e₂ ∧ e₁.propagators = e₂.propagators ∧
      (p₁.config.correctGlobalPhase = p₂.config.correctGlobalPhase → e₁ = e₂) := by
  obtain ⟨⟨gates, ss₁, us, f₁, hgates, hss₁, hus, _, hf₁⟩, hrun₁⟩ :=
    exists_stages hbuild₁ hload₁ hinitial
  obtain ⟨⟨gates', ss₂, us', f₂, hgates', hss₂, hus', _, hf₂⟩, hrun₂⟩ :=
    exists_stages hbuild₂ hload₂ hinitial
  obtain rfl : gates = gates' := Except.ok.inj (hgates.symm.trans hgates')
  have hforms := onRegister_of_load hbuild₁ hload₁ hgates
  have hcontrols : p₁.device.controls = p₂.device.controls := Except.ok.inj
    ((SpinChain.controls_of_build hbuild₁).symm.trans (SpinChain.controls_of_build hbuild₂))
  have hperforms₂ := SpinChain.performs_segments hbuild₂ hforms hss₂
  obtain rfl : us = us' := by
    rw [← hcontrols] at hus' hperforms₂
    have hsame := SpinChain.propagators_of_performs (SpinChain.controlsAct_of_build hbuild₁)
      (SpinChain.performs_segments hbuild₁ hforms hss₁) hperforms₂
    exact Except.ok.inj (hus.symm.trans (hsame.trans hus'))
  rw [runAnalytical_of_load hload₁, runAnalytical_of_load hload₂]
  refine ⟨_, _, hrun₁, hrun₂, rfl, fun hflag => ?_⟩
  have hphase : p₁.trackedPhase gates = p₂.trackedPhase gates := by
    unfold trackedPhase
    rw [hflag]
  obtain rfl : f₁ = f₂ := Except.ok.inj (hf₁.symm.trans (hphase ▸ hf₂))
  simp only [Stages.result, hphase]

end TwoChains

/-- Two chains of one size and layout drive the same gates of a circuit by the same controls, each alone
and for the same area, however their strengths differ. So every analytical run of the circuit has the
same propagators on both, and the same result if both track the global phase or neither does. -/
theorem runs_free_of_strengths (hbuild₁ : SpinChain.build n layout given₁ = .ok p₁.device)
    (hbuild₂ : SpinChain.build n layout given₂ = .ok p₂.device)
    (hload₁ : p₁.load c = .ok q₁) (hload₂ : p₂.load c = .ok q₂) :
    (∃ native t₁ t₂, Gate.resolveAll c.gates = .ok native ∧
      q₁.timeline = some t₁ ∧ q₂.timeline = some t₂ ∧
      t₁.numSegments = (drivenGates native).length ∧ t₂.numSegments = (drivenGates native).length ∧
      ∀ k g, (drivenGates native)[k]? = some g → ∃ row area, Pulse n (layout.couplings n) g row area ∧
        t₁.DrivesAlone k row area ∧ t₂.DrivesAlone k row area) ∧
    ∀ initial,
      (initial.checkDim (registerDim n) = .ok () →
        ∃ e, (p₁.runAnalytical initial (some c)).2 = .ok e) ∧
      (p₁.runAnalytical initial (some c)).2.map (·.propagators) =
        (p₂.runAnalytical initial (some c)).2.map (·.propagators) ∧
      (p₁.config.correctGlobalPhase = p₂.config.correctGlobalPhase →
        (p₁.runAnalytical initial (some c)).2 = (p₂.runAnalytical initial (some c)).2) := by
  refine ⟨timelines_free_of_strengths hbuild₁ hbuild₂ hload₁ hload₂, fun initial => ?_⟩
  cases hinitial : initial.checkDim (registerDim n) with
  | error e =>
    rw [runAnalytical_misfit hbuild₁ hload₁ hinitial, runAnalytical_misfit hbuild₂ hload₂ hinitial]
    exact ⟨nofun, rfl, fun _ => rfl⟩
  | ok _ =>
    obtain ⟨e₁, e₂, hrun₁, hrun₂, hpropagators, hsame⟩ :=
      exists_runs hbuild₁ hbuild₂ hload₁ hload₂ hinitial
    rw [hrun₁, hrun₂]
    exact ⟨fun _ => ⟨e₁, rfl⟩, congrArg Except.ok hpropagators,
      fun hflag => congrArg Except.ok (hsame hflag)⟩

end Chains

/-- Rotations about x that are driven four times as hard. -/
theorem runs_free_of_strengths_on_chains_of_two :
    ∃ (_ : ScalarText ℝ) (chain₁ chain₂ : SpinChain ℝ) (p₁ p₂ : Processor (SpinChain ℝ) ℝ)
      (e : AnalyticalEvolution ℝ), SpinChain.build 2 .linear .default = .ok chain₁ ∧
      SpinChain.build 2 .linear { ChainStrengths.default with sx := .scalar (1 : ℝ) } = .ok chain₂ ∧
      ideal chain₁ = .ok p₁ ∧ ideal chain₂ = .ok p₂ ∧
      (p₁.runAnalytical (.basisKet 4 0) (some ⟨2, [.h 0, .iSwap 0 1], none⟩)).2 = .ok e ∧
      (p₂.runAnalytical (.basisKet 4 0) (some ⟨2, [.h 0, .iSwap 0 1], none⟩)).2 = .ok e := by
  let text : ScalarText ℝ :=
    ⟨fun _ => "", fun _ => "", fun _ => "", fun _ => none, fun _ => none⟩
  obtain ⟨chain₁, hchain₁⟩ := SpinChain.exists_build_default .linear two_ne_zero (by decide)
  obtain ⟨chain₂, hchain₂⟩ : ∃ chain : SpinChain ℝ, SpinChain.build 2 .linear
      { ChainStrengths.default with sx := .scalar (1 : ℝ) } = .ok chain :=
    SpinChain.exists_build_scalar .linear two_ne_zero (by decide) one_pos
      (by simp [ChainStrengths.defaultSz]) (by simp [ChainStrengths.defaultSxsy])
  obtain ⟨p₁, hp₁, rfl, hconfig₁⟩ := exists_ideal hchain₁
  obtain ⟨p₂, hp₂, rfl, hconfig₂⟩ := exists_ideal hchain₂
  have hdrivable : Circuit.Drivable 2 (ChainLayout.linear.couplings 2)
      (⟨2, [.h 0, .iSwap 0 1], none⟩ : Circuit ℝ) := Circuit.refusal?_eq_none.mp rfl
  obtain ⟨q₁, hq₁⟩ := (exists_load_iff hchain₁).mpr hdrivable
  obtain ⟨q₂, hq₂⟩ := (exists_load_iff hchain₂).mpr hdrivable
  obtain ⟨-, hruns⟩ := runs_free_of_strengths hchain₁ hchain₂ hq₁ hq₂
  obtain ⟨hok, -, hsame⟩ := hruns (.basisKet 4 0)
  obtain ⟨e, he⟩ := hok rfl
  exact ⟨text, p₁.device, p₂.device, p₁, p₂, e, hchain₁, hchain₂, hp₁, hp₂, he,
    (hsame (by rw [hconfig₁, hconfig₂])).symm.trans he⟩

end Processor
end QubitPulse
