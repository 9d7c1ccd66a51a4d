import Mathlib.Logic.Basic
import Mathlib.Logic.ExistsUnique
import Mathlib.Tactic.SplitIfs
import QubitPulse.Decimal.Text
import QubitPulse.Processor.Run
import QubitPulse.Proofs.Result
import QubitPulse.Scalar.Double
import QubitPulse.SpinChain.Basic

/-!
# What a processor remembers

A processor is driven by a sequence of calls, some of which fail. A call that succeeds in changing
what is stored leaves a commit; every other call leaves the processor as it was. The stored timeline
and the stored phase are determined by the last commit alone, together with the parameters that the
device has now: nothing of an earlier circuit, timeline or parameter survives a later commit.
-/
namespace QubitPulse

/-- What can be asked of a processor. A run may bring a circuit, which it loads first. -/
inductive Call (α ρ : Type) : Type 1 where
  | load (c : Circuit α)
  | setTimeline (t : Timeline α)
  | configure (parameters : ρ)
  | clear
  | runState {β : Type} (initial : State α) (mode : EvolutionMode α β)
      (circuit : Option (Circuit α))
  | runAnalytical (initial : State α) (circuit : Option (Circuit α))
  | runNumerical {β : Type} (solver : Solver α β) (initial : State α)
      (circuit : Option (Circuit α))

inductive Commit (α ρ : Type) where
  | loaded (c : Circuit α)
  | given (t : Timeline α)
  | configured (parameters : ρ)
  | cleared

/-- Where the pulses of a processor come from. -/
inductive Origin (α : Type) where
  | absent
  | given (t : Timeline α)
  | compiled (c : Circuit α)

namespace Processor

variable {δ α ρ : Type} [Device δ α ρ] [Scalar α]

/-- The processor after an operation; a failed one changes nothing. -/
def settle (p : Processor δ α) : Result α (Processor δ α) → Processor δ α
  | .ok q => q
  | .error _ => p

def after (p : Processor δ α) : Call α ρ → Processor δ α
  | .load c => p.settle (p.load c)
  | .setTimeline t => p.settle (p.setTimeline t)
  | .configure parameters => p.settle (p.configure parameters)
  | .clear => p.clear
  | .runState initial mode circuit => (p.runState initial mode circuit).1
  | .runAnalytical initial circuit => (p.runAnalytical initial circuit).1
  | .runNumerical solver initial circuit => (p.runNumerical solver initial circuit).1

def afterAll (p : Processor δ α) (calls : List (Call α ρ)) : Processor δ α :=
  calls.foldl after p

/-- The commit of an operation, if the operation succeeds. -/
def committed (m : Commit α ρ) : Result α (Processor δ α) → Option (Commit α ρ)
  | .ok _ => some m
  | .error _ => none

/-- The commit of a call. A run commits the load of its circuit, whether or not it succeeds. -/
def commit? (p : Processor δ α) : Call α ρ → Option (Commit α ρ)
  | .load c => committed (.loaded c) (p.load c)
  | .setTimeline t => committed (.given t) (p.setTimeline t)
  | .configure parameters => committed (.configured parameters) (p.configure parameters)
  | .clear => some .cleared
  | .runState _ _ circuit => circuit.bind fun c => committed (.loaded c) (p.load c)
  | .runAnalytical _ circuit => circuit.bind fun c => committed (.loaded c) (p.load c)
  | .runNumerical _ _ circuit => circuit.bind fun c => committed (.loaded c) (p.load c)

def commits (p : Processor δ α) : List (Call α ρ) → List (Commit α ρ)
  | [] => []
  | call :: calls => (p.commit? call).toList ++ commits (p.after call) calls

/-- What a successful commit makes of a processor. -/
def Performs (p : Processor δ α) : Commit α ρ → Processor δ α → Prop
  | .loaded c, q => p.load c = .ok q
  | .given t, q => p.setTimeline t = .ok q
  | .configured parameters, q => p.configure parameters = .ok q
  | .cleared, q => p.clear = q

/-- The pulses and the phase of a processor come from an origin, given the commits so far: no pulses
unless the last commit stored some, a timeline as the last commit gave it, or the decomposition, by
the device as it is now, of the circuit that the last commit loaded. -/
def Stems (p : Processor δ α) (log : List (Commit α ρ)) : Origin α → Prop
  | .absent =>
    p.timeline = none ∧ p.globalPhase = Scalar.zero ∧
      (∀ c, log.getLast? ≠ some (.loaded c)) ∧ ∀ t, log.getLast? ≠ some (.given t)
  | .given t =>
    log.getLast? = some (.given t) ∧ p.timeline = some t ∧ p.globalPhase = Scalar.zero ∧
      t.validate = .ok () ∧ t.numControls = Device.numControls p.device
  | .compiled c =>
    log.getLast? = some (.loaded c) ∧ ∃ native t,
      Device.resolve p.device c.gates = .ok native ∧
      Device.decompose p.device (drivenGates native) = .ok t ∧ p.timeline = some t ∧
      p.globalPhase = if p.config.correctGlobalPhase then phaseOf native else Scalar.zero

/-! ## What the operations store -/

theorem load_eq_ok {p q : Processor δ α} {c : Circuit α} :
    p.load c = .ok q ↔ ∃ native t, p.nativeGates c = .ok native ∧
      Device.decompose p.device (drivenGates native) = .ok t ∧
      q = { p with timeline := some t, globalPhase := p.trackedPhase native } := by
  unfold load
  simp only [Result.bind_eq_ok]
  constructor
  · rintro ⟨native, hn, t, ht, hq⟩
    cases hq
    exact ⟨native, t, hn, ht, rfl⟩
  · rintro ⟨native, t, hn, ht, rfl⟩
    exact ⟨native, hn, t, ht, rfl⟩

theorem setTimeline_eq_ok {p q : Processor δ α} {t : Timeline α} :
    p.setTimeline t = .ok q ↔ t.validate = .ok () ∧
      t.numControls = Device.numControls p.device ∧
      q = { p with timeline := some t, globalPhase := Scalar.zero } := by
  unfold setTimeline Timeline.checkControls
  simp only [Result.bind_eq_ok]
  constructor
  · rintro ⟨_, hv, _, hc, hq⟩
    split_ifs at hc with hrows
    cases hq
    exact ⟨hv, not_not.mp hrows, rfl⟩
  · rintro ⟨hv, hrows, rfl⟩
    exact ⟨(), hv, (), if_neg (not_not.mpr hrows), rfl⟩

theorem configure_eq_ok {p q : Processor δ α} {parameters : ρ} :
    p.configure parameters = .ok q ↔
      ∃ d, Device.configure p.device parameters = .ok d ∧ q = clear { p with device := d } := by
  unfold configure
  rw [Result.bind_eq_ok]
  constructor
  · rintro ⟨d, hd, hq⟩
    cases hq
    exact ⟨d, hd, rfl⟩
  · rintro ⟨d, hd, rfl⟩
    exact ⟨d, hd, rfl⟩

theorem nativeGates_eq_ok {p : Processor δ α} {c : Circuit α} {native : List (Gate α)} :
    p.nativeGates c = .ok native ↔ c.numQubits = p.numQubits ∧ c.validate = .ok () ∧
      Device.resolve p.device c.gates = .ok native := by
  unfold nativeGates
  split_ifs with h
  · simp [h]
  · rw [Result.bind_eq_ok]
    exact ⟨fun ⟨_, hvalid, hr⟩ => ⟨not_not.mp h, hvalid, hr⟩, fun ⟨_, hvalid, hr⟩ => ⟨(), hvalid, hr⟩⟩

/-! ## One call -/

omit [Device δ α ρ] [Scalar α] in
theorem settle_committed (p : Processor δ α) (m : Commit α ρ) (r : Result α (Processor δ α)) :
    (committed m r = none ∧ p.settle r = p) ∨
      (committed m r = some m ∧ r = .ok (p.settle r)) := by
  cases r with
  | error e => exact .inl ⟨rfl, rfl⟩
  | ok q => exact .inr ⟨rfl, rfl⟩

/-- A run without a circuit leaves the processor as it was, one with a circuit loads it. -/
theorem settle_loadIfGiven (p : Processor δ α) (circuit : Option (Circuit α)) :
    let commit : Option (Commit α ρ) := circuit.bind fun c => committed (.loaded c) (p.load c)
    (commit = none ∧ p.settle (p.loadIfGiven circuit) = p) ∨
      ∃ c, commit = some (.loaded c) ∧ p.load c = .ok (p.settle (p.loadIfGiven circuit)) := by
  cases circuit with
  | none => exact .inl ⟨rfl, rfl⟩
  | some c =>
    rcases p.settle_committed (.loaded c : Commit α ρ) (p.load c) with h | h
    · exact .inl h
    · exact .inr ⟨c, h⟩

theorem runState_fst {β : Type} (p : Processor δ α) (initial : State α)
    (mode : EvolutionMode α β) (circuit : Option (Circuit α)) :
    (p.runState initial mode circuit).1 = p.settle (p.loadIfGiven circuit) := by
  unfold runState
  cases p.loadIfGiven circuit <;> rfl

theorem runAnalytical_fst (p : Processor δ α) (initial : State α)
    (circuit : Option (Circuit α)) :
    (p.runAnalytical initial circuit).1 = p.settle (p.loadIfGiven circuit) := by
  unfold runAnalytical runAnalyticalWith
  cases p.loadIfGiven circuit <;> rfl

theorem runNumerical_fst {β : Type} (p : Processor δ α) (solver : Solver α β)
    (initial : State α) (circuit : Option (Circuit α)) :
    (p.runNumerical solver initial circuit).1 = p.settle (p.loadIfGiven circuit) := by
  unfold runNumerical
  cases p.loadIfGiven circuit <;> rfl

/-- Every call either changes nothing or performs its one commit. -/
theorem after_performs (p : Processor δ α) (call : Call α ρ) :
    (p.commit? call = none ∧ p.after call = p) ∨
      ∃ m, p.commit? call = some m ∧ p.Performs m (p.after call) := by
  have load_given (circuit : Option (Circuit α)) :
      let commit : Option (Commit α ρ) := circuit.bind fun c => committed (.loaded c) (p.load c)
      (commit = none ∧ p.settle (p.loadIfGiven circuit) = p) ∨
        ∃ m, commit = some m ∧ p.Performs m (p.settle (p.loadIfGiven circuit)) := by
    rcases p.settle_loadIfGiven (ρ := ρ) circuit with h | ⟨c, hc, hl⟩
    · exact .inl h
    · exact .inr ⟨.loaded c, hc, hl⟩
  cases call with
  | load c =>
    rcases p.settle_committed (.loaded c : Commit α ρ) (p.load c) with h | h
    · exact .inl h
    · exact .inr ⟨.loaded c, h⟩
  | setTimeline t =>
    rcases p.settle_committed (.given t : Commit α ρ) (p.setTimeline t) with h | h
    · exact .inl h
    · exact .inr ⟨.given t, h⟩
  | configure parameters =>
    rcases p.settle_committed (.configured parameters) (p.configure parameters) with h | h
    · exact .inl h
    · exact .inr ⟨.configured parameters, h⟩
  | clear => exact .inr ⟨.cleared, rfl, rfl⟩
  | runState initial mode circuit =>
    simp only [after, runState_fst]
    exact load_given circuit
  | runAnalytical initial circuit =>
    simp only [after, runAnalytical_fst]
    exact load_given circuit
  | runNumerical solver initial circuit =>
    simp only [after, runNumerical_fst]
    exact load_given circuit

/-! ## Sequences of calls -/

/-- After a commit the pulses stem from it, whatever was committed before. -/
theorem stems_of_performs {p q : Processor δ α} {m : Commit α ρ} (log : List (Commit α ρ))
    (h : p.Performs m q) : ∃ origin, q.Stems (log ++ [m]) origin := by
  cases m with
  | loaded c =>
    obtain ⟨native, t, hn, hd, rfl⟩ := load_eq_ok.mp h
    exact ⟨.compiled c, List.getLast?_concat, native, t, (nativeGates_eq_ok.mp hn).2.2, hd, rfl, rfl⟩
  | given t =>
    obtain ⟨hv, hrows, rfl⟩ := setTimeline_eq_ok.mp h
    exact ⟨.given t, List.getLast?_concat, rfl, rfl, hv, hrows⟩
  | configured parameters =>
    obtain ⟨d, -, rfl⟩ := configure_eq_ok.mp h
    refine ⟨.absent, rfl, rfl, ?_, ?_⟩ <;> simp
  | cleared =>
    obtain rfl : p.clear = q := h
    refine ⟨.absent, rfl, rfl, ?_, ?_⟩ <;> simp

theorem kept_of_performs {p q : Processor δ α} {m : Commit α ρ} (h : p.Performs m q) :
    q.config = p.config ∧ q.decoherence = p.decoherence := by
  cases m with
  | loaded c =>
    obtain ⟨_, _, _, _, rfl⟩ := load_eq_ok.mp h
    exact ⟨rfl, rfl⟩
  | given t =>
    obtain ⟨_, _, rfl⟩ := setTimeline_eq_ok.mp h
    exact ⟨rfl, rfl⟩
  | configured parameters =>
    obtain ⟨_, _, rfl⟩ := configure_eq_ok.mp h
    exact ⟨rfl, rfl⟩
  | cleared =>
    obtain rfl : p.clear = q := h
    exact ⟨rfl, rfl⟩

/-- The history of a processor that stems from an origin can be continued by any calls. -/
theorem stems_afterAll (calls : List (Call α ρ)) {p : Processor δ α} {log : List (Commit α ρ)}
    (h : ∃ origin, p.Stems log origin) :
    ∃ origin, (p.afterAll calls).Stems (log ++ p.commits calls) origin := by
  induction calls generalizing p log with
  | nil => simpa [afterAll, commits] using h
  | cons call calls ih =>
    have next : ∃ origin, (p.after call).Stems (log ++ (p.commit? call).toList) origin := by
      rcases p.after_performs call with ⟨hnone, hsame⟩ | ⟨m, hm, hp⟩
      · rw [hnone, hsame]
        simpa using h
      · rw [hm]
        exact stems_of_performs log hp
    have rest := ih next
    rwa [List.append_assoc] at rest

theorem kept_afterAll (calls : List (Call α ρ)) (p : Processor δ α) :
    (p.afterAll calls).config = p.config ∧ (p.afterAll calls).decoherence = p.decoherence := by
  induction calls generalizing p with
  | nil => exact ⟨rfl, rfl⟩
  | cons call calls ih =>
    have step : (p.after call).config = p.config ∧
        (p.after call).decoherence = p.decoherence := by
      rcases p.after_performs call with ⟨_, hsame⟩ | ⟨m, _, hp⟩
      · rw [hsame]
        exact ⟨rfl, rfl⟩
      · exact kept_of_performs hp
    obtain ⟨hc, hd⟩ := ih (p.after call)
    exact ⟨hc.trans step.1, hd.trans step.2⟩

theorem new_eq_ok {device : δ} {config : Config α} {p : Processor δ α}
    (h : new device config = .ok p) :
    p.config = config ∧ config.decoherence = .ok p.decoherence ∧ p.timeline = none ∧
      p.globalPhase = Scalar.zero ∧ p.device = device := by
  unfold new at h
  obtain ⟨_, _, h⟩ := Result.bind_eq_ok.mp h
  split_ifs at h
  obtain ⟨d, hd, hp⟩ := Result.bind_eq_ok.mp h
  cases hp
  exact ⟨rfl, hd, rfl, rfl, rfl⟩

theorem stems_of_new {device : δ} {config : Config α} {p : Processor δ α}
    (h : new device config = .ok p) : p.Stems ([] : List (Commit α ρ)) .absent := by
  obtain ⟨-, -, hnone, hzero, -⟩ := new_eq_ok h
  refine ⟨hnone, hzero, ?_, ?_⟩ <;> simp

end Processor
end QubitPulse
