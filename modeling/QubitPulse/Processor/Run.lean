import QubitPulse.Evolution.Analytical
import QubitPulse.Evolution.Dissipation
import QubitPulse.Processor.Basic

/-!
# Running a processor

A run evolves an initial state along the stored timeline, analytically or by an external solver. A
circuit given to a run is loaded first; once loaded it stays, whether or not the run succeeds.
-/
namespace QubitPulse

inductive EvolutionMode (α β : Type) where
  | analytical
  | numerical (solver : Solver α β)

namespace EvolutionMode

variable {α β : Type}

def describe : EvolutionMode α β → String
  | analytical => "Analytical"
  | numerical solver => "Numerical(" ++ solver.name ++ ")"

end EvolutionMode

inductive EvolutionResult (α β : Type) where
  | analytical (evolution : AnalyticalEvolution α)
  | numerical (output : β)

namespace EvolutionResult

variable {α β : Type}

def analytical? : EvolutionResult α β → Option (AnalyticalEvolution α)
  | analytical e => some e
  | numerical _ => none

def numerical? : EvolutionResult α β → Option β
  | analytical _ => none
  | numerical x => some x

end EvolutionResult

namespace Processor

variable {δ α ρ β : Type} [Device δ α ρ] [Scalar α]

/-- The problem that a solver is given for an initial state. -/
@[specialize] def evolutionProblem (p : Processor δ α) (initial : State α) :
    Result α (EvolutionProblem α) := do
  let t ← p.storedTimeline
  initial.checkDim (registerDim p.numQubits)
  return ⟨Device.controls p.device, t, ← p.decoherence.collapseOperators, initial⟩

/-- Evolves a state along the stored timeline, with the tracked phase, segment by segment as given. -/
@[specialize] def evolveAnalyticallyWith (propagate : Propagation α) (p : Processor δ α)
    (initial : State α) : Result α (AnalyticalEvolution α) := do
  let t ← p.storedTimeline
  initial.checkDim (registerDim p.numQubits)
  AnalyticalEvolution.computeWith propagate (Device.controls p.device) t initial p.globalPhase

@[specialize] def evolveAnalytically (p : Processor δ α) (initial : State α) :
    Result α (AnalyticalEvolution α) :=
  p.evolveAnalyticallyWith Operator.propagator initial

@[specialize] def evolve (p : Processor δ α) (initial : State α) :
    EvolutionMode α β → Result α (EvolutionResult α β)
  | .analytical => (p.evolveAnalytically initial).map .analytical
  | .numerical solver => do
    let problem ← p.evolutionProblem initial
    (solver.solve problem).map .numerical

def loadIfGiven (p : Processor δ α) : Option (Circuit α) → Result α (Processor δ α)
  | none => .ok p
  | some c => p.load c

/-- A run: the processor after it, and its result. -/
@[specialize] def runState (p : Processor δ α) (initial : State α) (mode : EvolutionMode α β)
    (circuit : Option (Circuit α)) :
    Processor δ α × Result α (EvolutionResult α β) :=
  match p.loadIfGiven circuit with
  | .error e => (p, .error e)
  | .ok loaded => (loaded, loaded.evolve initial mode)

/-- An analytical run, segment by segment as given. -/
@[specialize] def runAnalyticalWith (propagate : Propagation α) (p : Processor δ α)
    (initial : State α) (circuit : Option (Circuit α)) :
    Processor δ α × Result α (AnalyticalEvolution α) :=
  match p.loadIfGiven circuit with
  | .error e => (p, .error e)
  | .ok loaded => (loaded, loaded.evolveAnalyticallyWith propagate initial)

@[specialize] def runAnalytical (p : Processor δ α) (initial : State α)
    (circuit : Option (Circuit α)) : Processor δ α × Result α (AnalyticalEvolution α) :=
  p.runAnalyticalWith Operator.propagator initial circuit

@[specialize] def runNumerical (p : Processor δ α) (solver : Solver α β) (initial : State α)
    (circuit : Option (Circuit α)) : Processor δ α × Result α β :=
  match p.loadIfGiven circuit with
  | .error e => (p, .error e)
  | .ok loaded => (loaded, (loaded.evolutionProblem initial).bind solver.solve)

section Events

variable [ScalarText α]

def loadIfGivenEvents (p : Processor δ α) : Option (Circuit α) → List Event
  | none => []
  | some c => p.loadEvents c

/-- What is noted before an analytical evolution that finds a timeline and a fitting state. -/
def analyticalEvents (p : Processor δ α) (initial : State α) : List Event :=
  match p.storedTimeline, initial.checkDim (registerDim p.numQubits) with
  | .ok t, .ok _ =>
    [.debug (s!"analytical evolution over {t.numSegments} segments, duration " ++
      ScalarText.fixed t.totalDuration)]
  | _, _ => []

/-- What is noted before a problem is handed to a solver. -/
def dispatchEvents (p : Processor δ α) (solver : Solver α β) (initial : State α) : List Event :=
  match p.evolutionProblem initial with
  | .ok problem =>
    [.info (s!"dispatching {problem.timeline.numSegments} segments to solver {solver.name} " ++
      s!"with {problem.collapseOperators.length} collapse operators")]
  | .error _ => []

def evolveEvents (p : Processor δ α) (initial : State α) :
    EvolutionMode α β → List Event
  | .analytical => p.analyticalEvents initial
  | .numerical solver => p.dispatchEvents solver initial

def runEvents (p : Processor δ α) (initial : State α) (mode : EvolutionMode α β)
    (circuit : Option (Circuit α)) : List Event :=
  p.loadIfGivenEvents circuit ++
  match p.loadIfGiven circuit with
  | .ok loaded => loaded.evolveEvents initial mode
  | .error _ => []

end Events
end Processor
end QubitPulse
