import QubitPulse.Proofs.Evolution.Phase
import QubitPulse.Proofs.Processor.Composition
import QubitPulse.Proofs.Processor.Meaning

/-!
# Tracking the global phase

A processor that tracks the global phase and one that does not go through the same calls with the same
errors and the same pulses. What they show differs by a factor of modulus one, which no density matrix
and no probability has. The global phases of a circuit are taken out before compilation, so they change
the tracked phase by their angles and nothing else.
-/
namespace QubitPulse

namespace Processor

section Calls

variable {δ ρ : Type} [Device δ ℝ ρ] {p : Processor δ ℝ}

/-- The processor that does not track the phase, with the same pulses. -/
noncomputable def untracked (p : Processor δ ℝ) : Processor δ ℝ :=
  { p with config := { p.config with correctGlobalPhase := false }, globalPhase := 0 }

/-- The error of a call, if it fails. -/
noncomputable def error? (p : Processor δ ℝ) : Call ℝ ρ → Option (Error ℝ)
  | .load c => Result.error? (p.load c)
  | .setTimeline t => Result.error? (p.setTimeline t)
  | .configure parameters => Result.error? (p.configure parameters)
  | .clear => none
  | .runState initial mode circuit => Result.error? (p.runState initial mode circuit).2
  | .runAnalytical initial circuit => Result.error? (p.runAnalytical initial circuit).2
  | .runNumerical solver initial circuit => Result.error? (p.runNumerical solver initial circuit).2

/-- The errors of calls made one after the other. -/
noncomputable def errors (p : Processor δ ℝ) : List (Call ℝ ρ) → List (Option (Error ℝ))
  | [] => []
  | call :: calls => p.error? call :: errors (p.after call) calls

/-! ## Operations without tracking -/

theorem untracked_new (device : δ) (config : Config ℝ) :
    new device { config with correctGlobalPhase := false } = (new device config).map untracked := by
  unfold new
  rw [Result.map_bind]
  change (config.validate >>= _) = _
  refine bind_congr fun _ => ?_
  change (if config.numQubits ≠ Device.numQubits device then _ else _) = _
  split_ifs
  · rfl
  · change (config.decoherence >>= _) = _
    cases config.decoherence <;> rfl

theorem untracked_load (c : Circuit ℝ) : p.untracked.load c = (p.load c).map untracked := by
  unfold load
  change (p.nativeGates c >>= _) = _
  rw [Result.map_bind]
  refine bind_congr fun native => ?_
  change (Device.decompose p.device (drivenGates native) >>= _) = _
  cases Device.decompose p.device (drivenGates native) <;> rfl

theorem untracked_setTimeline (t : Timeline ℝ) :
    p.untracked.setTimeline t = (p.setTimeline t).map untracked := by
  unfold setTimeline
  rw [Result.map_bind]
  refine bind_congr fun _ => ?_
  change (t.checkControls (Device.numControls p.device) >>= _) = _
  cases t.checkControls (Device.numControls p.device) <;> rfl

theorem untracked_configure (parameters : ρ) :
    p.untracked.configure parameters = (p.configure parameters).map untracked := by
  unfold configure
  change (Device.configure p.device parameters >>= _) = _
  cases Device.configure p.device parameters <;> rfl

theorem untracked_loadIfGiven (circuit : Option (Circuit ℝ)) :
    p.untracked.loadIfGiven circuit = (p.loadIfGiven circuit).map untracked := by
  cases circuit with
  | none => rfl
  | some c => exact untracked_load c

/-! ## Results without tracking -/

/-- What is shown differs by the phase. -/
theorem evolve_untracked (propagate : Propagation ℝ) (initial : State ℝ) :
    p.evolveAnalyticallyWith propagate initial =
      (p.untracked.evolveAnalyticallyWith propagate initial).map (.rephase p.globalPhase) := by
  unfold evolveAnalyticallyWith
  rw [Result.map_bind]
  refine bind_congr fun t => ?_
  rw [Result.map_bind]
  refine bind_congr fun _ => ?_
  exact AnalyticalEvolution.computeWith_phase propagate _ t initial p.globalPhase

theorem runAnalytical_untracked (initial : State ℝ) (circuit : Option (Circuit ℝ)) :
    (p.untracked.runAnalytical initial circuit).1 = (p.runAnalytical initial circuit).1.untracked ∧
      (p.runAnalytical initial circuit).2 = (p.untracked.runAnalytical initial circuit).2.map
        (.rephase (p.runAnalytical initial circuit).1.globalPhase) := by
  unfold runAnalytical runAnalyticalWith
  rw [untracked_loadIfGiven]
  cases p.loadIfGiven circuit with
  | error e => exact ⟨rfl, rfl⟩
  | ok loaded => exact ⟨rfl, evolve_untracked _ initial⟩

/-- A solver is given the same problem. -/
theorem runNumerical_untracked {β : Type} (solver : Solver ℝ β) (initial : State ℝ)
    (circuit : Option (Circuit ℝ)) :
    (p.untracked.runNumerical solver initial circuit).2 =
      (p.runNumerical solver initial circuit).2 := by
  unfold runNumerical
  rw [untracked_loadIfGiven]
  cases p.loadIfGiven circuit <;> rfl

theorem error?_runState_untracked {β : Type} (initial : State ℝ) (mode : EvolutionMode ℝ β)
    (circuit : Option (Circuit ℝ)) :
    Result.error? (p.untracked.runState initial mode circuit).2 =
      Result.error? (p.runState initial mode circuit).2 := by
  unfold runState
  rw [untracked_loadIfGiven]
  cases p.loadIfGiven circuit with
  | error e => rfl
  | ok loaded =>
    cases mode with
    | analytical =>
      change Result.error? ((loaded.untracked.evolveAnalyticallyWith _ initial).map _) =
        Result.error? ((loaded.evolveAnalyticallyWith _ initial).map _)
      rw [evolve_untracked (p := loaded), Result.error?_map, Result.error?_map, Result.error?_map]
    | numerical solver => rfl

/-! ## Calls without tracking -/

omit [Device δ ℝ ρ] in
theorem settle_untracked (r : Result ℝ (Processor δ ℝ)) :
    p.untracked.settle (r.map untracked) = (p.settle r).untracked := by
  cases r <;> rfl

theorem after_untracked (call : Call ℝ ρ) : p.untracked.after call = (p.after call).untracked := by
  cases call with
  | load c => rw [after, untracked_load, settle_untracked, after]
  | setTimeline t => rw [after, untracked_setTimeline, settle_untracked, after]
  | configure parameters => rw [after, untracked_configure, settle_untracked, after]
  | clear => rfl
  | runState initial mode circuit =>
    rw [after, runState_fst, untracked_loadIfGiven, settle_untracked, after, runState_fst]
  | runAnalytical initial circuit => exact (runAnalytical_untracked initial circuit).1
  | runNumerical solver initial circuit =>
    rw [after, runNumerical_fst, untracked_loadIfGiven, settle_untracked, after, runNumerical_fst]

theorem error?_untracked (call : Call ℝ ρ) : p.untracked.error? call = p.error? call := by
  cases call with
  | load c => rw [error?, untracked_load, Result.error?_map, error?]
  | setTimeline t => rw [error?, untracked_setTimeline, Result.error?_map, error?]
  | configure parameters => rw [error?, untracked_configure, Result.error?_map, error?]
  | clear => rfl
  | runState initial mode circuit => exact error?_runState_untracked initial mode circuit
  | runAnalytical initial circuit =>
    rw [error?, error?, (runAnalytical_untracked (p := p) initial circuit).2, Result.error?_map]
  | runNumerical solver initial circuit => rw [error?, runNumerical_untracked, error?]

/-- Calls do the same to both processors, and fail on both or on neither. -/
theorem calls_untracked (calls : List (Call ℝ ρ)) :
    p.untracked.errors calls = p.errors calls ∧
      p.untracked.afterAll calls = (p.afterAll calls).untracked := by
  induction calls generalizing p with
  | nil => exact ⟨rfl, rfl⟩
  | cons call calls ih =>
    rw [errors, errors, error?_untracked, after_untracked]
    refine ⟨congrArg _ ih.1, ?_⟩
    change (p.untracked.after call).afterAll calls = _
    rw [after_untracked]
    exact ih.2

end Calls
end Processor

/-! ## Global phases of a circuit -/

namespace Gate

open Processor (isGlobalPhase drivenGates drivenGates_append phaseOf phaseOf_append)

theorem resolveAll_cons {α : Type} [Scalar α] {g : Gate α} {gates native : List (Gate α)} :
    resolveAll (g :: gates) = .ok native ↔
      ∃ part rest, g.resolve = .ok part ∧ resolveAll gates = .ok rest ∧ native = part ++ rest := by
  unfold resolveAll
  constructor
  · intro h
    obtain ⟨_, hparts, rfl⟩ := Result.map_eq_ok.mp h
    cases Result.mapM_eq_ok.mp hparts with
    | cons hpart hrest =>
      exact ⟨_, _, hpart, Result.map_eq_ok.mpr ⟨_, Result.mapM_eq_ok.mpr hrest, rfl⟩, rfl⟩
  · rintro ⟨part, _, hpart, hrest, rfl⟩
    obtain ⟨parts, hparts, rfl⟩ := Result.map_eq_ok.mp hrest
    exact Result.map_eq_ok.mpr
      ⟨part :: parts, Result.mapM_eq_ok.mpr (.cons hpart (Result.mapM_eq_ok.mp hparts)), rfl⟩

theorem expand_of_isGlobalPhase {α : Type} [Scalar α] {g : Gate α} (h : isGlobalPhase g = true) :
    g.expand = .ok [g] := by
  have hkind : g.kind = .globalPhase := by simpa [isGlobalPhase] using h
  unfold expand
  rw [hkind]

/-- The native gates that are driven are those of the gates other than global phases. The phases of a
gate list are those it has itself and those of its expansions. -/
theorem exists_resolveAll_drivenGates {gates native : List (Gate ℝ)}
    (h : resolveAll gates = .ok native) :
    ∃ others, resolveAll (drivenGates gates) = .ok others ∧ drivenGates native = drivenGates others ∧
      phaseOf native = phaseOf gates + phaseOf others := by
  induction gates generalizing native with
  | nil =>
    refine ⟨native, h, rfl, ?_⟩
    simp [phaseOf, Scalar.sum_real]
  | cons g gates ih =>
    obtain ⟨part, rest, hpart, hrest, rfl⟩ := resolveAll_cons.mp h
    obtain ⟨others, hothers, hdriven, hphase⟩ := ih hrest
    have hsplit : phaseOf (g :: gates) = phaseOf [g] + phaseOf gates := phaseOf_append [g] gates
    by_cases hg : isGlobalPhase g = true
    · obtain ⟨_, -, hexpand⟩ := Result.bind_eq_ok.mp hpart
      obtain rfl : part = [g] := Except.ok.inj (hexpand.symm.trans (expand_of_isGlobalPhase hg))
      have hskip : ∀ gates, drivenGates (g :: gates) = drivenGates gates := fun gates =>
        List.filter_cons_of_neg (by simp [hg])
      refine ⟨others, (hskip gates).symm ▸ hothers, (hskip rest).trans hdriven, ?_⟩
      rw [phaseOf_append, hphase, hsplit, add_assoc]
    · have hkeep : drivenGates (g :: gates) = g :: drivenGates gates :=
        List.filter_cons_of_pos (by simp [hg])
      have hnone : phaseOf [g] = 0 := by simp [phaseOf, hg, Scalar.sum_real]
      refine ⟨part ++ others, ?_, ?_, ?_⟩
      · rw [hkeep]
        exact resolveAll_cons.mpr ⟨part, others, hpart, hothers, rfl⟩
      · rw [drivenGates_append, drivenGates_append, hdriven]
      · rw [phaseOf_append, phaseOf_append, hphase, hsplit, hnone]
        ring

end Gate

namespace Circuit

open Processor (isGlobalPhase drivenGates)

/-- Global phases that are well-formed can be driven on every chain. -/
theorem Drivable.of_drivenGates {α : Type} [Scalar α] {n : ℕ} {couplings : List (ℕ × ℕ)} {c : Circuit α}
    (h : c.Drivable n couplings) {gates : List (Gate α)}
    (hdriven : drivenGates gates = drivenGates c.gates)
    (hvalid : ∀ g ∈ gates, isGlobalPhase g = true → g.validate = .ok ()) :
    Drivable n couplings { c with gates := gates } := by
  have hcases : ∀ g ∈ gates, g ∈ c.gates ∨ g.kind = .globalPhase ∧ g.validate = .ok () := by
    intro g hg
    by_cases hphase : isGlobalPhase g = true
    · exact .inr ⟨by simpa [isGlobalPhase] using hphase, hvalid g hg hphase⟩
    · have hmem : g ∈ drivenGates gates := List.mem_filter.mpr ⟨hg, by simp [hphase]⟩
      exact .inl (List.mem_of_mem_filter (hdriven ▸ hmem))
  refine ⟨h.size, fun g hg => ?_, fun g hg => ?_, fun g hg => ?_⟩
  · rcases hcases g hg with hmem | ⟨hkind, hval⟩
    · exact h.wellFormed g hmem
    · obtain ⟨htargets, hcontrols, -, -, -⟩ := Gate.validate_eq_ok.mp hval
      rw [hkind] at htargets hcontrols
      refine ⟨hval, ?_⟩
      simp [Gate.qubits, List.length_eq_zero_iff.mp htargets, List.length_eq_zero_iff.mp hcontrols]
  · rcases hcases g hg with hmem | ⟨hkind, -⟩
    · exact h.native g hmem
    · simp [hkind]
  · rcases hcases g hg with hmem | ⟨hkind, -⟩
    · exact h.coupled g hmem
    · simp [hkind]

end Circuit

namespace Processor

section Chains

variable [ScalarText ℝ] {n : ℕ} {layout : ChainLayout} {given : ChainStrengths ℝ}
  {device : SpinChain ℝ} {p p₁ p₂ q : Processor (SpinChain ℝ) ℝ} {config : Config ℝ} {c : Circuit ℝ}

/-- With other global phases a circuit loads to the same timeline, and the tracked phase changes by the
difference of the phases. -/
theorem exists_load_of_drivenGates (hbuild : SpinChain.build n layout given = .ok p.device)
    (hload : p.load c = .ok q) {gates : List (Gate ℝ)}
    (hdriven : drivenGates gates = drivenGates c.gates)
    (hvalid : ∀ g ∈ gates, isGlobalPhase g = true → g.validate = .ok ()) :
    ∃ q', p.load { c with gates := gates } = .ok q' ∧ q'.timeline = q.timeline ∧
      q'.globalPhase = q.globalPhase + (p.trackedPhase gates - p.trackedPhase c.gates) := by
  have hdrivable := (exists_load_iff hbuild).mp ⟨q, hload⟩
  obtain ⟨q', hload'⟩ := (exists_load_iff hbuild).mpr (hdrivable.of_drivenGates hdriven hvalid)
  refine ⟨q', hload', ?_⟩
  obtain ⟨native, t, hnative, ht, rfl⟩ := load_eq_ok.mp hload
  obtain ⟨native', t', hnative', ht', rfl⟩ := load_eq_ok.mp hload'
  obtain ⟨others, hothers, hsame, hphase⟩ :=
    Gate.exists_resolveAll_drivenGates (nativeGates_eq_ok.mp hnative).2.2
  obtain ⟨others', hothers', hsame', hphase'⟩ :=
    Gate.exists_resolveAll_drivenGates (nativeGates_eq_ok.mp hnative').2.2
  rw [hdriven] at hothers'
  obtain rfl := Except.ok.inj (hothers.symm.trans hothers')
  rw [hsame', ← hsame] at ht'
  obtain rfl := Except.ok.inj (ht.symm.trans ht')
  refine ⟨rfl, ?_⟩
  change p.trackedPhase native' = p.trackedPhase native + _
  unfold trackedPhase
  split_ifs
  · rw [hphase, hphase']
    ring
  · simp

/-- Two processors on a chain that differ only in whether they track the global phase fail in the same
calls with the same errors. After any calls an analytical run stores the same timeline on both, and the
result of the one that tracks is the result of the other with the tracked phase put in: the propagators
of the segments are the same, the total propagator and a vector have the factor of the phase more, and
density matrices and probabilities are the same; a solver gives the same results. Global phases that are
inserted into a circuit, deleted or moved keep the other gates in their order: such a circuit loads to the
same timeline, and the tracked phase changes by the angles that were added less those removed. -/
theorem phase_tracking_unobservable (hbuild : SpinChain.build n layout given = .ok device)
    (htrack : config.correctGlobalPhase = true) (h₁ : new device config = .ok p₁)
    (h₂ : new device { config with correctGlobalPhase := false } = .ok p₂)
    (calls : List (Call ℝ (ChainStrengths ℝ))) :
    p₁.errors calls = p₂.errors calls ∧
    (∀ initial circuit, ∃ q₁ q₂ r,
      (p₁.afterAll calls).runAnalytical initial circuit = (q₁, r.map (.rephase q₁.globalPhase)) ∧
      (p₂.afterAll calls).runAnalytical initial circuit = (q₂, r) ∧ q₁.timeline = q₂.timeline ∧
      ∀ e, r = .ok e →
        (e.rephase q₁.globalPhase).finalState.probabilities = e.finalState.probabilities) ∧
    (∀ (β : Type) (solver : Solver ℝ β) initial circuit,
      ((p₁.afterAll calls).runNumerical solver initial circuit).2 =
        ((p₂.afterAll calls).runNumerical solver initial circuit).2) ∧
    ∀ c q gates, (p₁.afterAll calls).load c = .ok q → drivenGates gates = drivenGates c.gates →
      (∀ g ∈ gates, isGlobalPhase g = true → g.validate = .ok ()) →
      ∃ q', (p₁.afterAll calls).load { c with gates := gates } = .ok q' ∧
        q'.timeline = q.timeline ∧
        q'.globalPhase = q.globalPhase + (phaseOf gates - phaseOf c.gates) := by
  obtain rfl : p₂ = p₁.untracked := by
    have hnew := untracked_new device config
    rw [h₁, h₂] at hnew
    exact Except.ok.inj hnew
  obtain ⟨herrors, hafter⟩ := calls_untracked (p := p₁) calls
  rw [hafter, herrors]
  refine ⟨rfl, fun initial circuit => ?_, fun β solver initial circuit => ?_, ?_⟩
  · obtain ⟨hprocessor, hresult⟩ := runAnalytical_untracked (p := p₁.afterAll calls) initial circuit
    refine ⟨_, _, _, Prod.ext rfl hresult, Prod.ext hprocessor rfl, rfl, fun e _ => ?_⟩
    exact State.probabilities_rephase _ _
  · exact (runNumerical_untracked solver initial circuit).symm
  · intro c q gates hload hdriven hvalid
    obtain ⟨hconfig, -, -, -, hdevice⟩ := new_eq_ok h₁
    have hflag : (p₁.afterAll calls).config.correctGlobalPhase = true := by
      rw [(p₁.kept_afterAll calls).1, hconfig, htrack]
    have hchain : ∃ given, SpinChain.build n layout given = .ok p₁.device :=
      ⟨given, hdevice.symm ▸ hbuild⟩
    obtain ⟨_, hbuilt⟩ := built_afterAll calls hchain
    have hphase : ∀ gates, (p₁.afterAll calls).trackedPhase gates = phaseOf gates := fun _ =>
      if_pos hflag
    have hrephased := exists_load_of_drivenGates hbuilt hload hdriven hvalid
    rwa [hphase, hphase] at hrephased

end Chains

/-- A Hadamard gate on a chain of two qubits, first loaded and then run from a basis state. Its phase is
tracked by one of two processors; a global phase of one that is put after the gate adds one to it. -/
theorem phase_tracking_unobservable_on_chain_of_two :
    ∃ (_ : ScalarText ℝ) (chain : SpinChain ℝ) (p₁ p₂ q₁ q₂ q q' : Processor (SpinChain ℝ) ℝ)
      (e : AnalyticalEvolution ℝ), SpinChain.build 2 .linear .default = .ok chain ∧
      new chain (.new 2) = .ok p₁ ∧
      new chain { Config.new 2 with correctGlobalPhase := false } = .ok p₂ ∧
      (p₁.after (.load ⟨2, [.h 0], none⟩)).runAnalytical (.basisKet 4 0) none =
        (q₁, .ok (e.rephase q₁.globalPhase)) ∧
      (p₂.after (.load ⟨2, [.h 0], none⟩)).runAnalytical (.basisKet 4 0) none = (q₂, .ok e) ∧
      (p₁.after (.load ⟨2, [.h 0], none⟩)).load ⟨2, [.h 0], none⟩ = .ok q ∧
      (p₁.after (.load ⟨2, [.h 0], none⟩)).load ⟨2, [.h 0, .globalPhase 1], none⟩ = .ok q' ∧
      q'.timeline = q.timeline ∧ q'.globalPhase = q.globalPhase + 1 := by
  let text : ScalarText ℝ :=
    ⟨fun _ => "", fun _ => "", fun _ => "", fun _ => none, fun _ => none⟩
  obtain ⟨chain, hchain⟩ := SpinChain.exists_build_default .linear two_ne_zero (by decide)
  obtain ⟨p₁, hp₁, rfl, -⟩ := exists_ideal hchain
  have hnew : new p₁.device (.new 2) = .ok p₁ := by
    rw [← numQubits_of_build hchain]
    exact hp₁
  have hnew' : new p₁.device { Config.new 2 with correctGlobalPhase := false } = .ok p₁.untracked := by
    rw [untracked_new, hnew]
    rfl
  let c : Circuit ℝ := ⟨2, [.h 0], none⟩
  obtain ⟨q, hload⟩ : ∃ q, p₁.load c = .ok q :=
    (exists_load_iff hchain).mpr (Circuit.refusal?_eq_none.mp rfl)
  have hafter : p₁.after (.load c) = q := by
    rw [after, hload]
    rfl
  obtain ⟨-, hruns, -, hphases⟩ := phase_tracking_unobservable hchain rfl hnew hnew' [.load c]
  obtain ⟨q₁, q₂, r, hrun₁, hrun₂, -, -⟩ := hruns (.basisKet 4 0) none
  obtain ⟨e, rfl⟩ : ∃ e, r = .ok e := by
    have hstate : (State.basisKet 4 0 : State ℝ).checkDim (registerDim 2) = .ok () := rfl
    obtain ⟨s, hs⟩ := exists_stages hchain hload hstate
    have hresult : r.map (.rephase q₁.globalPhase) = .ok s.result := by
      have hsecond := congrArg Prod.snd hrun₁
      change ((p₁.after (.load c)).runAnalytical _ none).2 = _ at hsecond
      rw [hafter] at hsecond
      exact hsecond.symm.trans hs
    obtain ⟨e, he, -⟩ := Result.map_eq_ok.mp hresult
    exact ⟨e, he⟩
  have hreload : (p₁.after (.load c)).load c = .ok q := by
    rw [hafter, load_of_load hload, hload]
  have hvalid : ∀ g ∈ ([.h 0, .globalPhase 1] : List (Gate ℝ)), isGlobalPhase g = true →
      g.validate = .ok () :=
    List.forall_mem_cons.mpr ⟨by simp [isGlobalPhase, Gate.h], List.forall_mem_singleton.mpr fun _ => rfl⟩
  have hone : phaseOf [.h 0, .globalPhase 1] - phaseOf ([.h 0] : List (Gate ℝ)) = 1 := by
    simp [phaseOf, isGlobalPhase, Gate.h, Gate.globalPhase, Scalar.sum_real]
  obtain ⟨q', hload', htimeline, hphase⟩ := hphases c q [.h 0, .globalPhase 1] hreload rfl hvalid
  exact ⟨text, p₁.device, p₁, p₁.untracked, q₁, q₂, q, q', e, hchain, hnew, hnew', hrun₁, hrun₂,
    hreload, hload', htimeline, hphase.trans (congrArg _ hone)⟩

end Processor
end QubitPulse
