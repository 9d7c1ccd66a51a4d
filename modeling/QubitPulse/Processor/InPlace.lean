import QubitPulse.Processor.Run
import QubitPulse.Update

/-!
# Processors in place

The operations on a processor as its user calls them: each works on the processor that the user holds
and overwrites its fields one after the other. A run leaves the processor with the circuit that it
loaded, whether or not the run succeeds.
-/
namespace QubitPulse.Processor.InPlace

variable {δ α ρ β : Type} [Device δ α ρ] [Scalar α]

def clear : Update (Processor δ α) α Unit := do
  modify fun p => { p with timeline := none }
  modify fun p => { p with globalPhase := Scalar.zero }

/-- Changes the parameters of the device by an update of the device. Pulses made for the old ones are
forgotten. -/
def configure (update : Update δ α Unit) : Update (Processor δ α) α Unit := do
  Update.onPart Processor.device (fun device p => { p with device := device }) update
  clear

/-- Compiles a circuit, stores its phase and its timeline, and gives the timeline. -/
def load (c : Circuit α) : Update (Processor δ α) α (Timeline α) := do
  let p ← get
  let native ← Update.attempt (p.nativeGates c)
  let timeline ← Update.attempt (Device.decompose p.device (drivenGates native))
  modify fun p => { p with globalPhase := p.trackedPhase native }
  modify fun p => { p with timeline := some timeline }
  return timeline

/-- Stores a timeline that fits the device, without a phase. -/
def setTimeline (t : Timeline α) : Update (Processor δ α) α Unit := do
  Update.attempt t.validate
  let p ← get
  Update.attempt (t.checkControls (Device.numControls p.device))
  modify fun p => { p with timeline := some t }
  modify fun p => { p with globalPhase := Scalar.zero }

def loadIfGiven : Option (Circuit α) → Update (Processor δ α) α Unit
  | none => pure ()
  | some c => do
    let _ ← load c

@[specialize] def runState (initial : State α) (mode : EvolutionMode α β)
    (circuit : Option (Circuit α)) : Update (Processor δ α) α (EvolutionResult α β) := do
  loadIfGiven circuit
  let p ← get
  Update.attempt (p.evolve initial mode)

@[specialize] def runAnalytical (initial : State α) (circuit : Option (Circuit α)) :
    Update (Processor δ α) α (AnalyticalEvolution α) := do
  loadIfGiven circuit
  let p ← get
  Update.attempt (p.evolveAnalytically initial)

/-- The output of a solver. A run in the mode of a solver gives no other result. -/
@[specialize] def runNumerical (solver : Solver α β) (initial : State α)
    (circuit : Option (Circuit α)) : Update (Processor δ α) α β := do
  match (← runState initial (.numerical solver) circuit).numerical? with
  | some output => return output
  | none => throw (.solverError (.other "solver produced no output"))

end QubitPulse.Processor.InPlace
