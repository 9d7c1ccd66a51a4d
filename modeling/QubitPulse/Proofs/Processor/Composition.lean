import QubitPulse.Proofs.Evolution.Composition
import QubitPulse.Proofs.Processor.Loading
import QubitPulse.Proofs.SpinChain.Segments

/-!
# Circuits one after the other

Nothing of a circuit is left in the pulses of the next one: compilation takes gates one at a time, and a
segment is propagated by itself. So running two circuits in a row is running the circuit that has the
gates of both.
-/
namespace QubitPulse

open AnalyticalEvolution (segmentPropagator totalOf Fit)

theorem Gate.resolveAll_append {α : Type} [Scalar α] {gates gates' expanded expanded' : List (Gate α)}
    (h : resolveAll gates = .ok expanded) (h' : resolveAll gates' = .ok expanded') :
    resolveAll (gates ++ gates') = .ok (expanded ++ expanded') := by
  obtain ⟨parts, hparts, rfl⟩ := Result.map_eq_ok.mp h
  obtain ⟨parts', hparts', rfl⟩ := Result.map_eq_ok.mp h'
  unfold resolveAll
  rw [List.mapM_append, hparts, hparts']
  exact congrArg Except.ok List.flatten_append

namespace Processor

theorem drivenGates_append {α : Type} (gates gates' : List (Gate α)) :
    drivenGates (gates ++ gates') = drivenGates gates ++ drivenGates gates' :=
  List.filter_append gates gates'

section Phases

variable {p : Processor (SpinChain ℝ) ℝ}

theorem phaseOf_append (gates gates' : List (Gate ℝ)) :
    phaseOf (gates ++ gates') = phaseOf gates + phaseOf gates' := by
  simp [phaseOf, Scalar.sum_real]

theorem trackedPhase_append (gates gates' : List (Gate ℝ)) :
    p.trackedPhase (gates ++ gates') = p.trackedPhase gates + p.trackedPhase gates' := by
  unfold trackedPhase
  split_ifs
  · exact phaseOf_append gates gates'
  · exact (add_zero 0).symm

end Phases

/-- The stages of an analytical run of a circuit: the native gates, the segments of those that are
driven, the propagators of the segments and the final state. -/
structure Stages (p : Processor (SpinChain ℝ) ℝ) (n : ℕ) (c : Circuit ℝ) (initial : State ℝ) where
  gates : List (Gate ℝ)
  segments : List (ℝ × List ℝ)
  propagators : List (Operator ℝ)
  final : State ℝ
  resolved : Gate.resolveAll c.gates = .ok gates
  compiled : p.device.decomposer.segments (drivenGates gates) = .ok segments
  propagated : segments.mapM
    (segmentPropagator Operator.propagator p.device.controls (registerDim n)) = .ok propagators
  fit : Fit n propagators
  evolved : initial.evolve (totalOf (registerDim n) (p.trackedPhase gates) propagators) = .ok final

namespace Stages

variable {p : Processor (SpinChain ℝ) ℝ} {n : ℕ} {a b c : Circuit ℝ} {initial : State ℝ}

noncomputable def result (s : Stages p n c initial) : AnalyticalEvolution ℝ :=
  ⟨s.propagators, p.trackedPhase s.gates,
    totalOf (registerDim n) (p.trackedPhase s.gates) s.propagators, s.final⟩

/-- Every stage is determined by the ones before. -/
theorem unique (s s' : Stages p n c initial) : s = s' := by
  obtain ⟨gates, segments, us, final, hgates, hsegments, hus, _, hfinal⟩ := s
  obtain ⟨gates', segments', us', final', hgates', hsegments', hus', _, hfinal'⟩ := s'
  obtain rfl := Except.ok.inj (hgates.symm.trans hgates')
  obtain rfl := Except.ok.inj (hsegments.symm.trans hsegments')
  obtain rfl := Except.ok.inj (hus.symm.trans hus')
  obtain rfl := Except.ok.inj (hfinal.symm.trans hfinal')
  rfl

theorem checkDim_final (s : Stages p n c initial) : s.final.checkDim (registerDim n) = .ok () :=
  (AnalyticalEvolution.shape_totalOf s.fit _).1 ▸ State.checkDim_of_evolve s.evolved

theorem total_append (s : Stages p n a initial) (s' : Stages p n b s.final) :
    totalOf (registerDim n) (p.trackedPhase (s.gates ++ s'.gates)) (s.propagators ++ s'.propagators) =
      s'.result.total.mul s.result.total := by
  rw [trackedPhase_append]
  exact AnalyticalEvolution.totalOf_append s.fit s'.fit _ _

/-- Two runs in a row have the stages of one run of both circuits. -/
noncomputable def append (s : Stages p n a initial) (s' : Stages p n b s.final) :
    Stages p n { a with gates := a.gates ++ b.gates } initial where
  gates := s.gates ++ s'.gates
  segments := s.segments ++ s'.segments
  propagators := s.propagators ++ s'.propagators
  final := s'.final
  resolved := Gate.resolveAll_append s.resolved s'.resolved
  compiled := by
    rw [drivenGates_append, Decomposer.segments_append, s.compiled, s'.compiled]
    rfl
  propagated := by
    rw [List.mapM_append, s.propagated, s'.propagated]
    rfl
  fit := List.forall_mem_append.mpr ⟨s.fit, s'.fit⟩
  evolved := by
    obtain ⟨hrows, -⟩ := AnalyticalEvolution.shape_totalOf s.fit (p.trackedPhase s.gates)
    obtain ⟨hrows', hcols'⟩ := AnalyticalEvolution.shape_totalOf s'.fit (p.trackedPhase s'.gates)
    rw [s.total_append s']
    exact (State.evolve_evolve s.evolved (hrows'.trans hrows.symm) (hcols'.trans hrows.symm)).symm.trans
      s'.evolved

end Stages

section Chains

variable [ScalarText ℝ] {n : ℕ} {layout : ChainLayout} {given : ChainStrengths ℝ}
  {p q pa pb : Processor (SpinChain ℝ) ℝ} {a b c : Circuit ℝ} {initial : State ℝ}

/-- A load stores the segments of the driven gates, each with a coefficient for every control. -/
theorem segments_of_load (hbuild : SpinChain.build n layout given = .ok p.device)
    (hload : p.load c = .ok q) :
    ∃ native ss, Gate.resolveAll c.gates = .ok native ∧
      p.device.decomposer.segments (drivenGates native) = .ok ss ∧
      (∀ s ∈ ss, s.2.length = p.device.controls.length) ∧
      q = { p with
        timeline := some (.steps p.device.controls.length ss)
        globalPhase := p.trackedPhase native } := by
  obtain ⟨native, t, hnative, hdecompose, rfl⟩ := load_eq_ok.mp hload
  obtain ⟨-, -, hresolve⟩ := nativeGates_eq_ok.mp hnative
  have huniform := SpinChain.uniform_of_build hbuild
  have hcontrols := SpinChain.numControls_of_build hbuild
  have hsegments : (p.device.decomposer.segments (drivenGates native) >>=
      Timeline.ofSegments p.device.decomposer.numControls) = .ok t :=
    (Decomposer.decompose_eq huniform _).symm.trans hdecompose
  obtain ⟨ss, hss, ht⟩ := Result.bind_eq_ok.mp hsegments
  have hlength := Decomposer.length_of_segments huniform (SpinChain.appends_of_build hbuild) hss
  rw [hcontrols] at hlength ht
  exact ⟨native, ss, hresolve, hss, hlength, by rw [Timeline.ofSegments_eq_ok ht]⟩

/-- A circuit that loads goes through all stages from every state of the register. -/
theorem exists_stages (hbuild : SpinChain.build n layout given = .ok p.device)
    (hload : p.load c = .ok q) (hinitial : initial.checkDim (registerDim n) = .ok ()) :
    ∃ s : Stages p n c initial, q.evolveAnalytically initial = .ok s.result := by
  obtain ⟨native, ss, hresolve, hss, hlength, rfl⟩ := segments_of_load hbuild hload
  obtain ⟨-, hn, -⟩ := SpinChain.build_eq_ok.mp hbuild
  obtain ⟨us, final, hus, hfit, hfinal, hrun⟩ := AnalyticalEvolution.computeWith_steps hn
    (SpinChain.dim_of_build hbuild) hlength hinitial (p.trackedPhase native)
  refine ⟨⟨native, ss, us, final, hresolve, hss, hus, hfit, hfinal⟩, ?_⟩
  refine Result.bind_eq_ok.mpr ⟨_, rfl, Result.bind_eq_ok.mpr ⟨(), ?_, hrun⟩⟩
  exact (numQubits_of_build hbuild).symm ▸ hinitial

theorem runAnalytical_of_load (hload : p.load c = .ok q) (initial : State ℝ) :
    p.runAnalytical initial (some c) = (q, q.evolveAnalytically initial) := by
  unfold runAnalytical runAnalyticalWith loadIfGiven
  simp only [hload]
  rfl

/-- What a processor loaded before makes no difference to a load. -/
theorem load_of_load (ha : p.load a = .ok pa) (b : Circuit ℝ) : pa.load b = p.load b := by
  obtain ⟨_, _, -, -, rfl⟩ := load_eq_ok.mp ha
  rfl

/-- A circuit with the gates of two circuits that load also loads. -/
theorem exists_load_append (hbuild : SpinChain.build n layout given = .ok p.device)
    (ha : p.load a = .ok pa) (hb : p.load b = .ok pb) :
    ∃ q, p.load { a with gates := a.gates ++ b.gates } = .ok q :=
  have hdrivable := (exists_load_iff hbuild).mp ⟨pa, ha⟩
  (exists_load_iff hbuild).mpr (hdrivable.append ((exists_load_iff hbuild).mp ⟨pb, hb⟩))

/-- Running two circuits one after the other, the second from the state in which the first ends, gives
the final state of the circuit with the gates of both. The total propagator is the product of the two,
the propagators of the segments are listed one after the other, and the phases add. -/
theorem runAnalytical_append (hbuild : SpinChain.build n layout given = .ok p.device)
    (ha : p.load a = .ok pa) (hb : p.load b = .ok pb)
    (hinitial : initial.checkDim (registerDim n) = .ok ()) :
    ∃ q ea eb e, p.runAnalytical initial (some a) = (pa, .ok ea) ∧
      pa.runAnalytical ea.finalState (some b) = (pb, .ok eb) ∧
      p.runAnalytical initial (some { a with gates := a.gates ++ b.gates }) = (q, .ok e) ∧
      e.finalState = eb.finalState ∧ e.total = eb.total.mul ea.total ∧
      e.propagators = ea.propagators ++ eb.propagators ∧
      e.globalPhase = ea.globalPhase + eb.globalPhase := by
  obtain ⟨q, hq⟩ := exists_load_append hbuild ha hb
  obtain ⟨sa, hsa⟩ := exists_stages hbuild ha hinitial
  obtain ⟨sb, hsb⟩ := exists_stages hbuild hb sa.checkDim_final
  obtain ⟨s, hs⟩ := exists_stages hbuild hq hinitial
  obtain rfl : s = sa.append sb := s.unique _
  refine ⟨q, sa.result, sb.result, (sa.append sb).result, ?_, ?_, ?_, rfl, sa.total_append sb, rfl,
    trackedPhase_append sa.gates sb.gates⟩
  · rw [runAnalytical_of_load ha, hsa]
  · rw [runAnalytical_of_load ((load_of_load ha b).trans hb)]
    exact congrArg (pb, ·) hsb
  · rw [runAnalytical_of_load hq, hs]

end Chains

/-- A Hadamard gate and then an exchange, on a chain of two qubits. -/
theorem runAnalytical_append_on_chain_of_two :
    ∃ (_ : ScalarText ℝ) (chain : SpinChain ℝ) (p pa pb q : Processor (SpinChain ℝ) ℝ)
      (ea eb e : AnalyticalEvolution ℝ), SpinChain.build 2 .linear .default = .ok chain ∧
      ideal chain = .ok p ∧
      p.runAnalytical (.basisKet 4 0) (some ⟨2, [.h 0], none⟩) = (pa, .ok ea) ∧
      pa.runAnalytical ea.finalState (some ⟨2, [.iSwap 0 1], none⟩) = (pb, .ok eb) ∧
      p.runAnalytical (.basisKet 4 0) (some ⟨2, [.h 0, .iSwap 0 1], none⟩) = (q, .ok e) ∧
      e.finalState = eb.finalState ∧ e.total = eb.total.mul ea.total ∧
      e.propagators = ea.propagators ++ eb.propagators ∧
      e.globalPhase = ea.globalPhase + eb.globalPhase := by
  let text : ScalarText ℝ :=
    ⟨fun _ => "", fun _ => "", fun _ => "", fun _ => none, fun _ => none⟩
  obtain ⟨chain, hchain⟩ := SpinChain.exists_build_default .linear two_ne_zero (by decide)
  obtain ⟨p, hp, rfl, -⟩ := exists_ideal hchain
  obtain ⟨pa, ha⟩ : ∃ pa, p.load ⟨2, [.h 0], none⟩ = .ok pa :=
    (exists_load_iff hchain).mpr (Circuit.refusal?_eq_none.mp rfl)
  obtain ⟨pb, hb⟩ : ∃ pb, p.load ⟨2, [.iSwap 0 1], none⟩ = .ok pb :=
    (exists_load_iff hchain).mpr (Circuit.refusal?_eq_none.mp rfl)
  obtain ⟨q, ea, eb, e, h⟩ := runAnalytical_append hchain ha hb
    (show (State.basisKet 4 0).checkDim (registerDim 2) = .ok () from rfl)
  exact ⟨text, p.device, p, pa, pb, q, ea, eb, e, hchain, hp, h⟩

end Processor
end QubitPulse
