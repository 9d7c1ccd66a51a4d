import QubitPulse.Proofs.Processor.InPlace
import QubitPulse.Proofs.Processor.Meaning
import QubitPulse.Proofs.SpinChain.Segments

/-!
# Dispatch to a solver

A run in the mode of a solver hands one problem to it and gives back what it answers, or fails before and
leaves it alone. A solver that is a function cannot tell how often it is asked. So the runs are followed
here with a solver that has a state of its own, in which it may count what it is asked and keep it; for a
solver without a state they are the runs of a held processor.
-/
namespace QubitPulse

section Noise

variable {α : Type} [Scalar α]

namespace Decoherence

variable {d : Decoherence α} {q : ℕ}

theorem exists_relaxation (hq : q < d.numQubits) : ∃ ops, d.relaxation q = .ok ops := by
  unfold relaxation
  rw [Operator.embed_eq_ok rfl rfl hq]
  cases d.relaxationRate? q <;> exact ⟨_, rfl⟩

theorem exists_dephasing (hq : q < d.numQubits) : ∃ ops, d.dephasing q = .ok ops := by
  unfold dephasing
  rw [Operator.embed_eq_ok rfl rfl hq]
  cases d.dephasingRate? q <;> exact ⟨_, rfl⟩

/-- The noise of a register always has its operators. -/
theorem exists_collapseOperators (d : Decoherence α) : ∃ ops, d.collapseOperators = .ok ops := by
  have hqubit : ∀ q ∈ List.range d.numQubits, ∃ ops,
      (do return (← d.relaxation q) ++ (← d.dephasing q)) = (.ok ops : Result α _) ∧ True := by
    intro q hq
    obtain ⟨first, hfirst⟩ := exists_relaxation (List.mem_range.mp hq)
    obtain ⟨second, hsecond⟩ := exists_dephasing (List.mem_range.mp hq)
    exact ⟨first ++ second, Result.bind_eq_ok.mpr ⟨first, hfirst, Result.bind_eq_ok.mpr
      ⟨second, hsecond, rfl⟩⟩, trivial⟩
  unfold collapseOperators
  split_ifs
  · exact ⟨[], rfl⟩
  · obtain ⟨ops, hops, -⟩ := Result.exists_mapM_forall hqubit
    exact ⟨ops.flatten, Result.bind_eq_ok.mpr ⟨ops, hops, rfl⟩⟩

end Decoherence

end Noise

/-! ## Runs of a solver with a state -/

namespace Processor

variable {δ α ρ β σ : Type} [Device δ α ρ] [Scalar α]

namespace InPlace

/-- An operation on the processor, beside the state of a solver. -/
def onProcessor (u : Update (Processor δ α) α β) : Update (Processor δ α × σ) α β :=
  Update.onPart Prod.fst (fun p held => (p, held.2)) u

def onSolver (u : Update σ α β) : Update (Processor δ α × σ) α β :=
  Update.onPart Prod.snd (fun s held => (held.1, s)) u

/-- A run in the mode of a solver, where the solver has a state. -/
def runStateBy (solve : EvolutionProblem α → Update σ α β) (initial : State α)
    (circuit : Option (Circuit α)) : Update (Processor δ α × σ) α (EvolutionResult α β) := do
  onProcessor (loadIfGiven circuit)
  let held ← get
  let problem ← Update.attempt (held.1.evolutionProblem initial)
  let output ← onSolver (solve problem)
  return .numerical output

/-- The output of a solver that has a state. -/
def runNumericalBy (solve : EvolutionProblem α → Update σ α β) (initial : State α)
    (circuit : Option (Circuit α)) : Update (Processor δ α × σ) α β := do
  match (← runStateBy solve initial circuit).numerical? with
  | some output => return output
  | none => throw (.solverError (.other "solver produced no output"))

omit [Device δ α ρ] [Scalar α] in
theorem onProcessor_apply (u : Update (Processor δ α) α β) (p : Processor δ α) (s : σ) :
    onProcessor u (p, s) =
      match u p with
      | .ok x q => .ok x (q, s)
      | .error e q => .error e (q, s) := by
  unfold onProcessor Update.onPart
  cases u p <;> rfl

omit [Device δ α ρ] [Scalar α] in
theorem onSolver_apply (u : Update σ α β) (p : Processor δ α) (s : σ) :
    onSolver u (p, s) =
      match u s with
      | .ok x t => .ok x (p, t)
      | .error e t => .error e (p, t) := by
  unfold onSolver Update.onPart
  cases u s <;> rfl

section Steps

variable (solve : EvolutionProblem α → Update σ α β) (initial : State α)
  (circuit : Option (Circuit α)) (p : Processor δ α) (s : σ)

/-- The steps of a run. Whatever happens before the solver is asked leaves its state alone. -/
theorem runStateBy_apply : runStateBy solve initial circuit (p, s) =
    match p.loadIfGiven circuit with
    | .error e => .error e (p, s)
    | .ok q =>
      match q.evolutionProblem initial with
      | .error e => .error e (q, s)
      | .ok problem =>
        match solve problem s with
        | .ok x t => .ok (.numerical x) (q, t)
        | .error e t => .error e (q, t) := by
  unfold runStateBy
  rw [Update.bind_apply, onProcessor_apply, loadIfGiven_apply]
  cases p.loadIfGiven circuit with
  | error e => rfl
  | ok q =>
    simp only [Update.get_bind, Update.attempt_bind]
    cases q.evolutionProblem initial with
    | error e => rfl
    | ok problem =>
      simp only [Update.bind_apply, onSolver_apply]
      cases solve problem s <;> rfl

theorem runNumericalBy_apply : runNumericalBy solve initial circuit (p, s) =
    match p.loadIfGiven circuit with
    | .error e => .error e (p, s)
    | .ok q =>
      match q.evolutionProblem initial with
      | .error e => .error e (q, s)
      | .ok problem =>
        match solve problem s with
        | .ok x t => .ok x (q, t)
        | .error e t => .error e (q, t) := by
  unfold runNumericalBy
  rw [Update.bind_apply, runStateBy_apply]
  cases p.loadIfGiven circuit with
  | error e => rfl
  | ok q =>
    dsimp only
    cases q.evolutionProblem initial with
    | error e => rfl
    | ok problem =>
      dsimp only
      cases solve problem s <;> rfl

end Steps

section Stateless

variable (solver : Solver α β) (initial : State α) (circuit : Option (Circuit α))

theorem runState_eq_running : runState (δ := δ) initial (.numerical solver) =
    running fun p => ((p.evolutionProblem initial).bind solver.solve).map .numerical := by
  have hanswer : (fun p : Processor δ α => p.evolve initial (.numerical solver)) = fun p =>
      ((p.evolutionProblem initial).bind solver.solve).map .numerical :=
    funext fun p => evolve_numerical p solver initial
  rw [← hanswer]
  rfl

/-- With a solver that has no state, these are the runs of the processor alone. -/
theorem runStateBy_attempt :
    runStateBy (fun problem => .attempt (solver.solve problem)) initial circuit =
      onProcessor (δ := δ) (σ := σ) (runState initial (.numerical solver) circuit) := by
  funext held
  obtain ⟨p, s⟩ := held
  rw [runStateBy_apply, onProcessor_apply, runState_eq_running, running_apply]
  cases p.loadIfGiven circuit with
  | error e => rfl
  | ok q =>
    dsimp only
    cases q.evolutionProblem initial with
    | error e => rfl
    | ok problem =>
      dsimp only [Except.bind]
      cases solver.solve problem <;> rfl

theorem runNumericalBy_attempt :
    runNumericalBy (fun problem => .attempt (solver.solve problem)) initial circuit =
      onProcessor (δ := δ) (σ := σ) (runNumerical solver initial circuit) := by
  funext held
  obtain ⟨p, s⟩ := held
  unfold runNumericalBy runNumerical
  rw [runStateBy_attempt, Update.bind_apply, onProcessor_apply, onProcessor_apply, Update.bind_apply]
  cases runState initial (.numerical solver) circuit p with
  | error e q => rfl
  | ok x q =>
    dsimp only
    cases x.numerical? <;> rfl

end Stateless

end InPlace

/-! ## What reaches the solver -/

/-- How far a run by a solver gets, in the order of its checks: the processor after it, and the problem
that the solver is asked or the error with which the solver is not asked at all. -/
inductive Dispatches (p : Processor δ α) (initial : State α) (circuit : Option (Circuit α)) :
    Processor δ α → Result α (EvolutionProblem α) → Prop where
  | refused (e : Error α) (load : p.loadIfGiven circuit = .error e) :
      Dispatches p initial circuit p (.error e)
  | empty (q : Processor δ α) (load : p.loadIfGiven circuit = .ok q) (absent : q.timeline = none) :
      Dispatches p initial circuit q (.error .noPulses)
  | misfit (q : Processor δ α) (t : Timeline α) (load : p.loadIfGiven circuit = .ok q)
      (stored : q.timeline = some t) (other : ¬initial.Fits (2 ^ p.numQubits)) :
      Dispatches p initial circuit q (.error (.dimensionMismatch (2 ^ p.numQubits) initial.dim))
  | reached (q : Processor δ α) (t : Timeline α) (ops : List (Operator α))
      (load : p.loadIfGiven circuit = .ok q) (stored : q.timeline = some t)
      (fits : initial.Fits (2 ^ p.numQubits)) (noise : p.decoherence.collapseOperators = .ok ops)
      (rows : t.numControls = (Device.controls p.device).length) :
      Dispatches p initial circuit q (.ok ⟨Device.controls p.device, t, ops, initial⟩)

section Dispatching

variable {p q : Processor δ α} {initial : State α} {circuit : Option (Circuit α)}

/-- A load keeps the device and the noise. -/
theorem kept_of_loadIfGiven (h : p.loadIfGiven circuit = .ok q) :
    q.device = p.device ∧ q.decoherence = p.decoherence := by
  cases circuit with
  | none =>
    obtain rfl := Except.ok.inj h
    exact ⟨rfl, rfl⟩
  | some c =>
    obtain ⟨_, _, -, -, rfl⟩ := load_eq_ok.mp h
    exact ⟨rfl, rfl⟩

/-- Every run by a solver gets to one of the four ends. -/
theorem exists_dispatches (hrows : ∀ q t, p.loadIfGiven circuit = .ok q → q.timeline = some t →
      t.numControls = Device.numControls p.device) (initial : State α) :
    ∃ q r, p.Dispatches initial circuit q r := by
  cases hload : p.loadIfGiven circuit with
  | error e => exact ⟨p, _, .refused e hload⟩
  | ok q =>
    cases hstored : q.timeline with
    | none => exact ⟨q, _, .empty q hload hstored⟩
    | some t =>
      by_cases hfits : initial.Fits (2 ^ p.numQubits)
      · obtain ⟨ops, hops⟩ := p.decoherence.exists_collapseOperators
        exact ⟨q, _, .reached q t ops hload hstored hfits hops (hrows q t hload hstored)⟩
      · exact ⟨q, _, .misfit q t hload hstored hfits⟩

/-- The evolution problem is asked for only after a load. -/
theorem Dispatches.problem {r : Result α (EvolutionProblem α)} (h : p.Dispatches initial circuit q r) :
    p.loadIfGiven circuit = .ok q ∧ q.evolutionProblem initial = r ∨
      ∃ e, p.loadIfGiven circuit = .error e ∧ r = .error e ∧ q = p := by
  cases h with
  | refused e load => exact .inr ⟨e, load, rfl, rfl⟩
  | empty q load absent =>
    refine .inl ⟨load, ?_⟩
    unfold evolutionProblem storedTimeline
    rw [absent]
    rfl
  | misfit q t load stored other =>
    obtain ⟨hdevice, -⟩ := kept_of_loadIfGiven load
    refine .inl ⟨load, ?_⟩
    unfold evolutionProblem storedTimeline numQubits
    rw [stored, hdevice, Result.ok_bind]
    have hcheck := State.checkDim_of_not_fits other
    change (initial.checkDim (2 ^ p.numQubits) >>= _) = _
    rw [hcheck]
    rfl
  | reached q t ops load stored fits noise rows =>
    obtain ⟨hdevice, hnoise⟩ := kept_of_loadIfGiven load
    refine .inl ⟨load, ?_⟩
    unfold evolutionProblem storedTimeline numQubits
    rw [stored, hdevice, hnoise, Result.ok_bind]
    have hcheck := State.checkDim_eq_ok_iff_fits.mpr fits
    change (initial.checkDim (2 ^ p.numQubits) >>= _) = _
    rw [hcheck, noise]
    rfl

namespace Dispatches

variable {r : Result α (EvolutionProblem α)}

/-- When there is a problem for the solver. -/
theorem reached_iff (h : p.Dispatches initial circuit q r) : (∃ problem, r = .ok problem) ↔
    ∃ q t, p.loadIfGiven circuit = .ok q ∧ q.timeline = some t ∧ initial.Fits (2 ^ p.numQubits) := by
  cases h with
  | refused e load => simp [load]
  | empty q load absent => simp [load, absent]
  | misfit q t load stored other => simp [other]
  | reached q t ops load stored fits noise rows => simp [load, stored, fits]

/-- The runs of a solver, from what is dispatched to it. -/
theorem run (h : p.Dispatches initial circuit q r) (solver : Solver α β) :
    InPlace.runState initial (.numerical solver) circuit p =
        Update.attempt ((r.bind solver.solve).map .numerical) q ∧
      InPlace.runNumerical solver initial circuit p = Update.attempt (r.bind solver.solve) q := by
  rw [InPlace.runState_eq_running, InPlace.runNumerical_eq_running, InPlace.running_apply,
    InPlace.running_apply]
  rcases h.problem with ⟨hload, hproblem⟩ | ⟨e, hload, rfl, rfl⟩
  · rw [hload, ← hproblem]
    exact ⟨rfl, rfl⟩
  · rw [hload]
    exact ⟨rfl, rfl⟩

/-- The same runs of a solver that has a state: it is asked once, from the state that it has, if a
problem is dispatched to it, and otherwise its state stays. -/
theorem runBy (h : p.Dispatches initial circuit q r) (solve : EvolutionProblem α → Update σ α β) (s : σ) :
    InPlace.runStateBy solve initial circuit (p, s) =
        (EvolutionResult.numerical <$> InPlace.onSolver (Update.attempt r >>= solve)) (q, s) ∧
      InPlace.runNumericalBy solve initial circuit (p, s) =
        InPlace.onSolver (Update.attempt r >>= solve) (q, s) := by
  rw [InPlace.runStateBy_apply, InPlace.runNumericalBy_apply, Update.map_apply, InPlace.onSolver_apply,
    Update.attempt_bind]
  rcases h.problem with ⟨hload, hproblem⟩ | ⟨e, hload, rfl, rfl⟩
  · rw [hload]
    dsimp only
    rw [hproblem]
    cases r with
    | error e => exact ⟨rfl, rfl⟩
    | ok problem =>
      dsimp only
      cases solve problem s <;> exact ⟨rfl, rfl⟩
  · rw [hload]
    exact ⟨rfl, rfl⟩

end Dispatches

end Dispatching

section Chains

variable [ScalarText α] {n : ℕ} {layout : ChainLayout} {given : ChainStrengths α}
  {device : SpinChain α} {config : Config α} {p₀ p q : Processor (SpinChain α) α}
  {circuit : Option (Circuit α)}

/-- A timeline with an origin has a row for every control of the chain. -/
theorem rows_of_stems (hbuilt : ∃ given, SpinChain.build n layout given = .ok p.device)
    {log : List (Commit α (ChainStrengths α))} {origin : Origin α} (h : p.Stems log origin)
    {t : Timeline α} (ht : p.timeline = some t) : t.numControls = Device.numControls p.device := by
  cases origin with
  | absent => cases h.1.symm.trans ht
  | given t' =>
    obtain ⟨-, ht', -, -, hrows⟩ := h
    obtain rfl : t' = t := Option.some.inj (ht'.symm.trans ht)
    exact hrows
  | compiled c =>
    obtain ⟨-, native, t', -, hdecompose, ht', -⟩ := h
    obtain rfl : t' = t := Option.some.inj (ht'.symm.trans ht)
    obtain ⟨_, hbuild⟩ := hbuilt
    exact SpinChain.numControls_of_decompose hbuild hdecompose

theorem exists_stems_of_loadIfGiven {log : List (Commit α (ChainStrengths α))}
    (h : ∃ origin, p.Stems log origin) (hload : p.loadIfGiven circuit = .ok q) :
    ∃ (log : List (Commit α (ChainStrengths α))) (origin : Origin α), q.Stems log origin := by
  cases circuit with
  | none =>
    obtain rfl := Except.ok.inj hload
    exact ⟨log, h⟩
  | some c => exact ⟨_, stems_of_performs log (m := .loaded c) hload⟩

/-- However a processor over a chain was used, a run by a solver asks it once or not at all. It is asked
exactly if the circuit loads, a timeline is stored then, and the state is a vector or a square matrix of
the dimension of the register; the problem holds the controls in the order of the rows of the timeline,
the timeline as it is stored then, the operators of the noise and the state as it is given; and what the
solver answers is the answer of the run, a value as well as an error. Otherwise the first of the three
that fails decides the error. -/
theorem solver_asked_once_or_not_at_all (hbuild : SpinChain.build n layout given = .ok device)
    (hnew : new device config = .ok p₀) (calls : List (Call α (ChainStrengths α))) (initial : State α)
    (circuit : Option (Circuit α)) :
    let p := p₀.afterAll calls
    p.numQubits = n ∧ ∃ q r, p.Dispatches initial circuit q r ∧
      ((∃ problem, r = .ok problem) ↔
        ∃ q t, p.loadIfGiven circuit = .ok q ∧ q.timeline = some t ∧ initial.Fits (2 ^ n)) ∧
      (∀ (β : Type) (solver : Solver α β),
        InPlace.runState initial (.numerical solver) circuit p =
            Update.attempt ((r.bind solver.solve).map .numerical) q ∧
          InPlace.runNumerical solver initial circuit p = Update.attempt (r.bind solver.solve) q) ∧
      (∀ (β σ : Type) (solve : EvolutionProblem α → Update σ α β) (s : σ),
        InPlace.runStateBy solve initial circuit (p, s) =
            (EvolutionResult.numerical <$> InPlace.onSolver (Update.attempt r >>= solve)) (q, s) ∧
          InPlace.runNumericalBy solve initial circuit (p, s) =
            InPlace.onSolver (Update.attempt r >>= solve) (q, s)) ∧
      ∀ (β σ : Type) (solver : Solver α β) (s : σ),
        InPlace.runStateBy (fun problem => .attempt (solver.solve problem)) initial circuit (p, s) =
            InPlace.onProcessor (InPlace.runState initial (.numerical solver) circuit) (p, s) ∧
          InPlace.runNumericalBy (fun problem => .attempt (solver.solve problem)) initial circuit
              (p, s) =
            InPlace.onProcessor (InPlace.runNumerical solver initial circuit) (p, s) := by
  intro p
  obtain ⟨-, -, -, -, hdevice⟩ := new_eq_ok hnew
  have hbuilt := built_afterAll calls ⟨given, hdevice.symm ▸ hbuild⟩
  have hstems : ∃ origin, p.Stems ([] ++ p₀.commits calls) origin :=
    stems_afterAll calls ⟨.absent, stems_of_new hnew⟩
  have hrows : ∀ q t, p.loadIfGiven circuit = .ok q → q.timeline = some t →
      t.numControls = Device.numControls p.device := by
    intro q t hload ht
    obtain ⟨hkept, -⟩ := kept_of_loadIfGiven hload
    obtain ⟨_, _, hq⟩ := exists_stems_of_loadIfGiven hstems hload
    rw [← hkept]
    exact rows_of_stems (hkept.symm ▸ hbuilt) hq ht
  obtain ⟨_, hbuild'⟩ := hbuilt
  obtain ⟨q, r, hdispatches⟩ := exists_dispatches hrows initial
  have hsize : p.numQubits = n := numQubits_of_build hbuild'
  refine ⟨hsize, q, r, hdispatches, hsize ▸ hdispatches.reached_iff,
    fun β solver => hdispatches.run solver, fun β σ solve s => hdispatches.runBy solve s,
    fun β σ solver s => ?_⟩
  exact ⟨congrFun (InPlace.runStateBy_attempt solver initial circuit) (p, s),
    congrFun (InPlace.runNumericalBy_attempt solver initial circuit) (p, s)⟩

end Chains

/-- A solver that keeps what it is asked, on a chain of one qubit: after a run of one gate it has the
problem of that gate and no other. -/
theorem solver_asked_once_on_chain_of_one :
    ∃ (chain : SpinChain Float) (p q : Processor (SpinChain Float) Float) (t : Timeline Float)
      (ops : List (Operator Float)), SpinChain.build 1 .linear .default = .ok chain ∧
      new chain (Config.new 1) = .ok p ∧ p.load ⟨1, [.x 0], none⟩ = .ok q ∧ q.timeline = some t ∧
      InPlace.runNumericalBy
          (fun problem => do
            modify (· ++ [problem])
            return problem.timeline.numSegments)
          (.basisKet 2 0) (some ⟨1, [.x 0], none⟩) (p, []) =
        .ok t.numSegments (q, [⟨chain.controls, t, ops, .basisKet 2 0⟩]) := by
  have hrun : (do
      let chain ← SpinChain.build 1 .linear .default
      let p ← new chain (Config.new 1)
      let q ← p.load ⟨1, [.x 0], none⟩
      return q.timeline.isSome) = (.ok true : Result Float Bool) := by
    decide +kernel
  obtain ⟨chain, hchain, hrun⟩ := Result.bind_eq_ok.mp hrun
  obtain ⟨p, hp, hrun⟩ := Result.bind_eq_ok.mp hrun
  obtain ⟨q, hq, hrun⟩ := Result.bind_eq_ok.mp hrun
  obtain ⟨t, ht⟩ := Option.isSome_iff_exists.mp (Except.ok.inj hrun)
  obtain ⟨-, q', r, hdispatches, hiff, -, hruns, -⟩ :=
    solver_asked_once_or_not_at_all hchain hp [] (.basisKet 2 0) (some ⟨1, [.x 0], none⟩)
  have hload : p.loadIfGiven (some ⟨1, [.x 0], none⟩) = .ok q := hq
  obtain ⟨problem, rfl⟩ := hiff.mpr ⟨q, t, hload, ht, rfl⟩
  cases hdispatches with
  | reached _ t' ops load stored =>
    obtain rfl : q = q' := Except.ok.inj (hload.symm.trans load)
    obtain rfl : t = t' := Option.some.inj (ht.symm.trans stored)
    obtain ⟨-, -, -, -, hdevice⟩ := new_eq_ok hp
    subst hdevice
    exact ⟨p.device, p, q, t, ops, hchain, hp, hq, ht, (hruns _ _ _ []).2⟩

end Processor
end QubitPulse
