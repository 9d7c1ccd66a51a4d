import QubitPulse.Processor.InPlace
import QubitPulse.Proofs.Processor.History
import QubitPulse.Proofs.SpinChain.Reconfiguration

/-!
# Calls on a held processor

A call on a held processor overwrites its fields one by one, and a failure undoes nothing. Still a call
that fails leaves the processor as it was, because every write comes after the last step that can fail.
So each call agrees with the operation that returns the processor after it.
-/
namespace QubitPulse

namespace Processor.InPlace

variable {δ α ρ β : Type} [Device δ α ρ] [Scalar α]

section Commits

variable (p : Processor δ α)

omit [Device δ α ρ] in
/-- What a device writes before it refuses parameters stays in the processor; the pulses are forgotten
only if it accepts them. -/
theorem configure_apply (update : Update δ α Unit) :
    configure update p =
      match update p.device with
      | .ok _ d => .ok () (Processor.clear { p with device := d })
      | .error e d => .error e { p with device := d } := by
  have hsteps : configure update p =
      (Update.onPart Processor.device (fun device p => { p with device := device }) update >>=
        fun _ => clear) p := rfl
  rw [hsteps, Update.bind_apply, Update.onPart]
  cases update p.device <;> rfl

/-- A device that keeps its parameters when it refuses others lets the processor keep everything. -/
theorem configure_follows {update : Update δ α Unit} {parameters : ρ}
    (h : update.Follows p.device (Device.configure p.device parameters)) :
    (configure update).Follows p (p.configure parameters) := by
  unfold Processor.configure Update.Follows
  rw [configure_apply]
  cases hdevice : Device.configure p.device parameters with
  | ok d =>
    rw [hdevice] at h
    obtain ⟨x, hx⟩ := h
    rw [hx]
    exact ⟨(), rfl⟩
  | error e =>
    rw [hdevice] at h
    rw [show update p.device = .error e p.device from h]
    rfl

theorem setTimeline_follows (t : Timeline α) : (setTimeline t).Follows p (p.setTimeline t) := by
  unfold Processor.setTimeline setTimeline Update.Follows
  rw [Update.attempt_bind]
  cases t.validate with
  | error e => rfl
  | ok _ =>
    simp only [Update.get_bind, Update.attempt_bind]
    cases t.checkControls (Device.numControls p.device) with
    | error e => rfl
    | ok _ => exact ⟨(), rfl⟩

theorem load_follows (c : Circuit α) : (load c).Follows p (p.load c) := by
  unfold Processor.load load Update.Follows
  rw [Update.get_bind, Update.attempt_bind]
  cases p.nativeGates c with
  | error e => rfl
  | ok native =>
    simp only [Update.attempt_bind, Result.ok_bind]
    cases Device.decompose p.device (drivenGates native) with
    | error e => rfl
    | ok t => exact ⟨t, rfl⟩

end Commits

section Runs

/-- Loads a circuit, if there is one, and answers from the processor as it is then. -/
def running (answer : Processor δ α → Result α β) (circuit : Option (Circuit α)) :
    Update (Processor δ α) α β := do
  loadIfGiven circuit
  let p ← get
  Update.attempt (answer p)

/-- A kind of run that loads the circuit it is given, goes on only if the load succeeded, as a run
without a circuit does, and changes nothing itself. -/
structure LoadsFirst (run : Option (Circuit α) → Update (Processor δ α) α β) (p : Processor δ α) :
    Prop where
  loaded : ∀ c t q, load c p = .ok t q → run (some c) p = run none q
  refused : ∀ c e q, load c p = .error e q → run (some c) p = .error e q
  unchanged : (run none).after p = p

theorem loadIfGiven_apply (circuit : Option (Circuit α)) (p : Processor δ α) :
    loadIfGiven circuit p =
      match p.loadIfGiven circuit with
      | .ok q => .ok () q
      | .error e => .error e p := by
  cases circuit with
  | none => rfl
  | some c =>
    have hfollows := load_follows p c
    change (load c >>= fun _ => (pure () : Update (Processor δ α) α Unit)) p = _
    rw [Update.bind_apply, Processor.loadIfGiven]
    cases hload : p.load c with
    | ok q =>
      rw [hload] at hfollows
      obtain ⟨t, ht⟩ := hfollows
      rw [ht]
      rfl
    | error e =>
      rw [hload] at hfollows
      rw [show load c p = .error e p from hfollows]

/-- The steps of a run: it loads its circuit, if it has one, and answers. -/
theorem running_apply (answer : Processor δ α → Result α β) (circuit : Option (Circuit α))
    (p : Processor δ α) : running answer circuit p =
      match p.loadIfGiven circuit with
      | .ok q => Update.attempt (answer q) q
      | .error e => .error e p := by
  unfold running
  rw [Update.bind_apply, loadIfGiven_apply]
  cases p.loadIfGiven circuit <;> rfl

theorem running_none (answer : Processor δ α → Result α β) (p : Processor δ α) :
    running answer none p = Update.attempt (answer p) p := rfl

theorem running_some (answer : Processor δ α → Result α β) (c : Circuit α) (p : Processor δ α) :
    running answer (some c) p =
      match load c p with
      | .ok _ q => running answer none q
      | .error e q => .error e q := by
  have hload : loadIfGiven (some c) p =
      match load c p with
      | .ok _ q => .ok () q
      | .error e q => .error e q := by
    change (load c >>= fun _ => (pure () : Update (Processor δ α) α Unit)) p = _
    rw [Update.bind_apply]
    cases load c p <;> rfl
  unfold running
  rw [Update.bind_apply, hload]
  cases load c p <;> rfl

theorem loadsFirst_running (answer : Processor δ α → Result α β) (p : Processor δ α) :
    LoadsFirst (running answer) p where
  loaded c t q h := by rw [running_some, h]
  refused c e q h := by rw [running_some, h]
  unchanged := by
    unfold Update.after
    rw [running_none]
    cases hanswer : answer p <;> simp [Update.attempt]

/-- Whatever a run answers, it leaves the processor with its circuit loaded, or as it was. -/
theorem after_running (answer : Processor δ α → Result α β) (circuit : Option (Circuit α))
    (p : Processor δ α) : (running answer circuit).after p = p.settle (p.loadIfGiven circuit) := by
  cases circuit with
  | none => exact (loadsFirst_running answer p).unchanged
  | some c =>
    have hfollows := load_follows p c
    rw [Processor.loadIfGiven]
    cases hload : p.load c with
    | ok q =>
      rw [hload] at hfollows
      obtain ⟨t, ht⟩ := hfollows
      rw [Update.after, (loadsFirst_running answer p).loaded c t q ht]
      exact (loadsFirst_running answer q).unchanged
    | error e =>
      rw [hload] at hfollows
      rw [Update.after, (loadsFirst_running answer p).refused c e p hfollows]
      rfl

theorem evolve_numerical (p : Processor δ α) (solver : Solver α β) (initial : State α) :
    p.evolve initial (.numerical solver) =
      ((p.evolutionProblem initial).bind solver.solve).map .numerical := by
  unfold Processor.evolve
  cases p.evolutionProblem initial <;> rfl

/-- A run in the mode of a solver has an output, so a run for the output gives what the solver gave. -/
theorem runNumerical_eq_running (solver : Solver α β) (initial : State α) :
    runNumerical (δ := δ) solver initial =
      running fun p => (p.evolutionProblem initial).bind solver.solve := by
  funext circuit p
  have hstate : runState (δ := δ) initial (.numerical solver) circuit =
      running (fun p => p.evolve initial (.numerical solver)) circuit := rfl
  unfold runNumerical
  rw [hstate]
  unfold running
  rw [Update.bind_apply, Update.bind_apply, Update.bind_apply]
  cases loadIfGiven circuit p with
  | error e q => rfl
  | ok _ q =>
    simp only [Update.get_bind, evolve_numerical]
    cases (q.evolutionProblem initial).bind solver.solve <;> rfl

end Runs

section Chains

variable [ScalarText α] (p : Processor (SpinChain α) α)

/-- A call as its user makes it; what it gives is left aside. -/
def perform : Call α (ChainStrengths α) → Update (Processor (SpinChain α) α) α Unit
  | .load c => do
    let _ ← load c
  | .setTimeline t => setTimeline t
  | .configure given => configure (SpinChain.configureInPlace given)
  | .clear => clear
  | .runState initial mode circuit => do
    let _ ← runState initial mode circuit
  | .runAnalytical initial circuit => do
    let _ ← runAnalytical initial circuit
  | .runNumerical solver initial circuit => do
    let _ ← runNumerical solver initial circuit

theorem configureInPlace_follows (given : ChainStrengths α) :
    (configure (SpinChain.configureInPlace given)).Follows p (p.configure given) :=
  configure_follows p (SpinChain.configureInPlace_follows given p.device)

/-- A call on a held processor leaves the processor that the operations return. -/
theorem after_perform (call : Call α (ChainStrengths α)) :
    (perform call).after p = p.after call := by
  have settled {β : Type} {u : Update (Processor (SpinChain α) α) α β} {operation}
      (h : u.Follows p operation) : u.after p = p.settle operation := by
    rw [h.after_eq]
    cases operation <;> rfl
  cases call with
  | load c => exact (Update.after_bind_pure _ () p).trans (settled (load_follows p c))
  | setTimeline t => exact settled (setTimeline_follows p t)
  | configure given => exact settled (configureInPlace_follows p given)
  | clear => rfl
  | runState initial mode circuit =>
    rw [perform, Update.after_bind_pure, Processor.after, runState_fst]
    exact after_running _ circuit p
  | runAnalytical initial circuit =>
    rw [perform, Update.after_bind_pure, Processor.after, runAnalytical_fst]
    exact after_running _ circuit p
  | runNumerical solver initial circuit =>
    rw [perform, Update.after_bind_pure, Processor.after, runNumerical_fst, runNumerical_eq_running]
    exact after_running _ circuit p

/-- Errors leave a processor over a chain as it was: its device with both kinds of parameters, its
timeline and its phase. A run of a circuit is a load of the circuit and, if that succeeded, a run
without a circuit, with the same result and the same processor afterwards; and a run without a circuit
leaves the processor as it was, whether or not it succeeds. -/
theorem errors_keep_and_runs_load :
    (∀ c e q, load c p = .error e q → q = p) ∧
      (∀ t e q, setTimeline t p = .error e q → q = p) ∧
      (∀ given e q, configure (SpinChain.configureInPlace given) p = .error e q → q = p) ∧
      ∀ (β : Type) (initial : State α) (mode : EvolutionMode α β) (solver : Solver α β),
        LoadsFirst (runState initial mode) p ∧ LoadsFirst (runAnalytical initial) p ∧
          LoadsFirst (runNumerical solver initial) p := by
  refine ⟨fun c e q => (load_follows p c).keeps, fun t e q => (setTimeline_follows p t).keeps,
    fun given e q => (configureInPlace_follows p given).keeps,
    fun β initial mode solver => ⟨loadsFirst_running _ p, loadsFirst_running _ p, ?_⟩⟩
  rw [runNumerical_eq_running]
  exact loadsFirst_running _ p

end Chains

/-- The second gate has no pulses, after those of the first were made; a run of the circuit fails
likewise. -/
theorem errors_keep_on_chain_of_two :
    ∃ (chain : SpinChain Float) (p : Processor (SpinChain Float) Float),
      SpinChain.build 2 .linear .default = .ok chain ∧ ideal chain = .ok p ∧
      load ⟨2, [.x 0, .swap 0 1], none⟩ p = .error (.unsupportedGate "SWAP") p ∧
      runAnalytical (.basisKet 4 0) (some ⟨2, [.x 0, .swap 0 1], none⟩) p =
        .error (.unsupportedGate "SWAP") p := by
  have hrun : (do
      let chain ← SpinChain.build 2 .linear .default
      let p ← ideal chain
      return (load ⟨2, [.x 0, .swap 0 1], none⟩).result p) =
        (.ok (.error (.unsupportedGate "SWAP")) : Result Float (Result Float (Timeline Float))) := by
    decide +kernel
  obtain ⟨chain, hchain, hrun⟩ := Result.bind_eq_ok.mp hrun
  obtain ⟨p, hp, hrun⟩ := Result.bind_eq_ok.mp hrun
  have hresult := Except.ok.inj hrun
  obtain ⟨hkeep, -, -, hruns⟩ := errors_keep_and_runs_load p
  cases hload : load ⟨2, [.x 0, .swap 0 1], none⟩ p with
  | ok t q => simp [Update.result, hload] at hresult
  | error e q =>
    obtain rfl := hkeep _ e q hload
    obtain rfl : e = .unsupportedGate "SWAP" := by simpa [Update.result, hload] using hresult
    have hanalytical := (hruns Unit (.basisKet 4 0) .analytical ⟨"none", fun _ => .ok ()⟩).2.1
    exact ⟨chain, q, hchain, hp, hload, hanalytical.refused _ _ _ hload⟩

end Processor.InPlace
end QubitPulse
