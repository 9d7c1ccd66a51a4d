import QubitPulse.Proofs.Processor.Loading
import QubitPulse.Proofs.SpinChain.Compilation

/-!
# What a loaded circuit does

A processor over a chain takes the global phases out of a circuit, compiles the rest and puts the phase
back at the end of an analytical run. Over exact arithmetic the total propagator is the product of the
textbook matrices of the circuit.
-/
namespace QubitPulse

open Matrix

namespace Processor

section Phases

variable {n : ℕ}

/-- Global phases commute with everything, so they can be collected. -/
theorem unitaryOf_drivenGates {native : List (Gate ℝ)} (h : ∀ g ∈ native, Gate.OnRegister n g) :
    Complex.exp (phaseOf native * Complex.I) • Gate.unitaryOf n (drivenGates native) =
      Gate.unitaryOf n native := by
  unfold phaseOf
  rw [Scalar.sum_real]
  induction native with
  | nil => simp [drivenGates]
  | cons g native ih =>
    have hrest := ih fun g hg => h g (by simp [hg])
    by_cases hg : isGlobalPhase g = true
    · obtain ⟨φ, rfl⟩ : ∃ φ, g = .globalPhase φ := by
        cases h g (by simp) with
        | globalPhase φ => exact ⟨φ, rfl⟩
        | _ => cases hg
      have hphases : ((Gate.globalPhase φ :: native).filter isGlobalPhase).filterMap (·.angle) =
          φ :: (native.filter isGlobalPhase).filterMap (·.angle) := rfl
      have hdriven : drivenGates (Gate.globalPhase φ :: native) = drivenGates native := rfl
      rw [hphases, hdriven, List.sum_cons, Gate.unitaryOf_cons, Gate.unitary_globalPhase, ← hrest,
        mul_smul_comm, mul_one, smul_smul, ← Complex.exp_add, Complex.ofReal_add, add_mul]
    · have hdriven : drivenGates (g :: native) = g :: drivenGates native := by
        simp [drivenGates, hg]
      rw [List.filter_cons_of_neg hg, hdriven, Gate.unitaryOf_cons, Gate.unitaryOf_cons, ← hrest,
        smul_mul_assoc]

end Phases

section Devices

variable {α : Type} [Scalar α] [ScalarText α] {n : ℕ} {layout : ChainLayout}
  {p q : Processor (SpinChain α) α}

theorem built_of_performs {m : Commit α (ChainStrengths α)} (h : p.Performs m q)
    (hbuild : ∃ given, SpinChain.build n layout given = .ok p.device) :
    ∃ given, SpinChain.build n layout given = .ok q.device := by
  cases m with
  | loaded c =>
    obtain ⟨_, _, _, _, rfl⟩ := load_eq_ok.mp h
    exact hbuild
  | given t =>
    obtain ⟨_, _, rfl⟩ := setTimeline_eq_ok.mp h
    exact hbuild
  | configured strengths =>
    obtain ⟨chain, hchain, rfl⟩ := configure_eq_ok.mp h
    obtain ⟨given, hbuild⟩ := hbuild
    exact ⟨strengths, SpinChain.build_of_configure hbuild hchain⟩
  | cleared =>
    obtain rfl : p.clear = q := h
    exact hbuild

/-- However a processor over a chain is used, its device stays a chain that some strengths build. -/
theorem built_afterAll (calls : List (Call α (ChainStrengths α)))
    (hbuild : ∃ given, SpinChain.build n layout given = .ok p.device) :
    ∃ given, SpinChain.build n layout given = .ok (p.afterAll calls).device := by
  induction calls generalizing p with
  | nil => exact hbuild
  | cons call calls ih =>
    apply ih
    rcases p.after_performs call with ⟨-, hsame⟩ | ⟨m, -, hperforms⟩
    · rw [hsame]
      exact hbuild
    · exact built_of_performs hperforms hbuild

end Devices

section Runs

variable [ScalarText ℝ] {n : ℕ} {layout : ChainLayout} {given : ChainStrengths ℝ}
  {p loaded : Processor (SpinChain ℝ) ℝ} {c : Circuit ℝ} {initial : State ℝ}

/-- An analytical run of a circuit, or one after the circuit was loaded, has the product of the textbook
matrices of its gates as total propagator, the global phase included. The segments are propagated
exactly. -/
theorem runAnalytical_performs (hchain : SpinChain.build n layout given = .ok p.device)
    (hphase : p.config.correctGlobalPhase = true) (hload : p.load c = .ok loaded)
    (hinitial : initial.checkDim (registerDim n) = .ok ()) :
    ∃ e, p.runAnalyticalWith Operator.exactPropagator initial (some c) = (loaded, .ok e) ∧
      loaded.runAnalyticalWith Operator.exactPropagator initial none = (loaded, .ok e) ∧
      e.total.ActsAs (Gate.unitaryOf n c.gates) := by
  obtain ⟨hpos, hn, strengths, controls, hstrengths, hcontrols, hdevice⟩ :=
    SpinChain.build_eq_ok.mp hchain
  obtain ⟨native, t, hnative, hdecompose, rfl⟩ := load_eq_ok.mp hload
  obtain ⟨hsize, hvalid, hresolve⟩ := nativeGates_eq_ok.mp hnative
  obtain ⟨device, config, decoherence, timeline, phase⟩ := p
  subst hdevice
  obtain rfl : c.numQubits = n := hsize
  have hforms : ∀ g ∈ c.gates, Gate.OnRegister c.numQubits g := fun g hg =>
    Gate.onRegister_of_checkGate (Result.forM_eq_ok.mp hvalid g hg)
  obtain ⟨hproduct, hnatives⟩ := Gate.unitaryOf_resolveAll hforms hresolve
  have hdriven : ∀ g ∈ drivenGates native, Gate.OnRegister c.numQubits g := fun g hg =>
    hnatives g (List.mem_of_mem_filter hg)
  obtain ⟨segments, hperforms, rfl⟩ := SpinChain.performs_decompose
    (ChainStrengths.drives_normalize hstrengths).positive hdriven hdecompose
  obtain ⟨controls', hcontrols', hacts⟩ := SpinChain.exists_buildControls
    fun pair hpair => SpinChain.lt_of_mem_couplings hpair
  obtain rfl := Except.ok.inj (hcontrols'.symm.trans hcontrols)
  obtain ⟨e, he, htotal⟩ := SpinChain.computeWith_exactPropagator hn hacts hperforms hinitial
    (phaseOf native)
  rw [unitaryOf_drivenGates hnatives, hproduct] at htotal
  have htracked : trackedPhase (Processor.mk _ config decoherence timeline phase) native =
      phaseOf native := if_pos hphase
  rw [htracked] at hload ⊢
  set loaded := Processor.mk _ config decoherence _ (phaseOf native)
  have hrun : loaded.evolveAnalyticallyWith Operator.exactPropagator initial = .ok e :=
    Result.bind_eq_ok.mpr ⟨_, rfl, Result.bind_eq_ok.mpr ⟨(), hinitial, he⟩⟩
  refine ⟨e, ?_, ?_, htotal⟩
  · unfold runAnalyticalWith loadIfGiven
    simp only [hload, hrun]
  · unfold runAnalyticalWith loadIfGiven
    simp only [hrun]

end Runs

/-- A Hadamard gate and an exchange on a chain of two qubits. -/
theorem runAnalytical_performs_on_chain_of_two :
    ∃ (_ : ScalarText ℝ) (chain : SpinChain ℝ) (p loaded : Processor (SpinChain ℝ) ℝ)
      (e : AnalyticalEvolution ℝ), SpinChain.build 2 .linear .default = .ok chain ∧
      Processor.ideal chain = .ok p ∧ p.load ⟨2, [.h 0, .iSwap 0 1], none⟩ = .ok loaded ∧
      p.runAnalyticalWith Operator.exactPropagator (.basisKet 4 0)
        (some ⟨2, [.h 0, .iSwap 0 1], none⟩) = (loaded, .ok e) ∧
      e.total.ActsAs (onPair (0 : Fin 2) 1 iSwapMatrix * onQubit (0 : Fin 2) hadamard) := by
  let text : ScalarText ℝ :=
    ⟨fun _ => "", fun _ => "", fun _ => "", fun _ => none, fun _ => none⟩
  have hroom : ∀ n ≤ 8, (Storage.reserve 1 [n] : Result ℝ Unit) = .ok () := fun n hn =>
    Storage.reserve_row one_pos (by simp [Word.mostBytes]; omega)
  obtain ⟨strengths, hstrengths⟩ : ∃ strengths : ParameterTable ℝ,
      ChainStrengths.default.normalize 2 1 = .ok strengths :=
    ⟨_, ChainStrengths.normalize_eq_ok.mpr ⟨_, _, _,
      ChainStrengths.usable_scalar (by simp [ChainStrengths.defaultSx]) (hroom 2 (by omega)),
      ChainStrengths.usable_scalar (by simp [ChainStrengths.defaultSz]) (hroom 2 (by omega)),
      ChainStrengths.usable_scalar (by simp [ChainStrengths.defaultSxsy]) (hroom 1 (by omega)),
      rfl⟩⟩
  obtain ⟨controls, hbuild, hacts⟩ := SpinChain.exists_build two_ne_zero (by decide)
    (show ChainStrengths.default.normalize 2 (ChainLayout.linear.couplings 2).length =
      .ok strengths from hstrengths)
  have hlength : controls.length = 5 :=
    hacts.length_eq.trans (SpinChain.length_controlMatrices 2 _)
  have hcoupled : (ChainLayout.linear.couplings 2).findIdx? (ChainContext.joins 0 1) = some 0 := rfl
  obtain ⟨t, ht⟩ : ∃ t, (SpinChain.decomposerOf 2 controls.length (ChainLayout.linear.couplings 2)
      strengths).decompose [.rz 0 (-Gate.halfPi), .rx 0 Gate.halfPi, .rz 0 Gate.halfPi,
        .rx 0 Scalar.pi, .iSwap 0 1] = .ok t := by
    refine SpinChain.exists_decompose (show strengths.Drives 2 1 from
      ChainStrengths.drives_normalize hstrengths) (by rw [hlength]; decide) fun g hg => ?_
    rw [hlength]
    simp only [List.mem_cons, List.not_mem_nil, or_false] at hg
    obtain rfl | rfl | rfl | rfl | rfl := hg
    · exact ⟨_, _, .rz 0 _, by decide⟩
    · exact ⟨_, _, .rx 0 _, by decide⟩
    · exact ⟨_, _, .rz 0 _, by decide⟩
    · exact ⟨_, _, .rx 0 _, by decide⟩
    · exact ⟨_, _, .iSwap 0 1 (by decide) 0 hcoupled, by decide⟩
  have hresolve : Gate.resolveAll ([.h 0, .iSwap 0 1] : List (Gate ℝ)) = .ok
      [.rz 0 (-Gate.halfPi), .rx 0 Gate.halfPi, .rz 0 Gate.halfPi, .rx 0 Scalar.pi,
        .globalPhase Gate.halfPi, .iSwap 0 1] :=
    Result.map_eq_ok.mpr ⟨[Gate.ryAsRx 0 Gate.halfPi ++ [.rx 0 Scalar.pi,
      .globalPhase Gate.halfPi], [.iSwap 0 1]], Result.mapM_eq_ok.mpr (.cons rfl (.cons rfl .nil)),
      rfl⟩
  let p : Processor (SpinChain ℝ) ℝ := ⟨⟨.linear, .default, controls, SpinChain.decomposerOf 2
    controls.length (ChainLayout.linear.couplings 2) strengths⟩, .new 2, .ideal 2, none, 0⟩
  obtain ⟨loaded, hload⟩ : ∃ loaded, p.load ⟨2, [.h 0, .iSwap 0 1], none⟩ = .ok loaded :=
    ⟨_, load_eq_ok.mpr ⟨_, t, nativeGates_eq_ok.mpr ⟨rfl, rfl, hresolve⟩, ht, rfl⟩⟩
  obtain ⟨e, hrun, -, htotal⟩ := runAnalytical_performs (p := p) hbuild rfl hload
    (show (State.basisKet 4 0).checkDim (registerDim 2) = .ok () from rfl)
  refine ⟨text, p.device, p, loaded, e, hbuild, ideal_eq_ok two_ne_zero, hload, hrun, ?_⟩
  have hproduct : Gate.unitaryOf 2 [.h 0, .iSwap 0 1] =
      onPair (0 : Fin 2) 1 iSwapMatrix * onQubit (0 : Fin 2) hadamard := by
    rw [Gate.unitaryOf_cons, Gate.unitaryOf_cons, Gate.unitaryOf_nil, one_mul]
    exact congrArg₂ (· * ·) (atPair_val 0 1 iSwapMatrix) (atQubit_val 0 hadamard)
  rwa [hproduct] at htotal

end Processor
end QubitPulse
