import QubitPulse.Circuit.Basic
import QubitPulse.Config
import QubitPulse.Device
import QubitPulse.Raster

/-!
# Processors

A processor owns a device, its noise, and the timeline of the circuit that was loaded last. Global
phases never reach the device: they are summed here and enter the analytical result only. Every
operation returns the processor after it; one that fails returns the processor as it was.
-/
namespace QubitPulse

structure Processor (δ α : Type) where
  device : δ
  config : Config α
  decoherence : Decoherence α
  timeline : Option (Timeline α)
  globalPhase : α

namespace Processor

variable {δ α ρ : Type} [Device δ α ρ] [Scalar α]

/-- A processor without pulses. The configuration has to be valid and to fit the device. -/
def new (device : δ) (config : Config α) : Result α (Processor δ α) := do
  config.validate
  if config.numQubits ≠ Device.numQubits device then
    .error (.invalidConfig (.deviceSize config.numQubits (Device.name device)
      (Device.numQubits device)))
  else
    let decoherence ← config.decoherence
    return ⟨device, config, decoherence, none, Scalar.zero⟩

def ideal (device : δ) : Result α (Processor δ α) :=
  new device (Config.new (Device.numQubits device))

def readyEvents [ScalarText α] (p : Processor δ α) : List Event :=
  [.info (s!"processor ready: {Device.name p.device} with {Device.numControls p.device} " ++
    "controls, " ++ p.decoherence.describe)]

def numQubits (p : Processor δ α) : Nat := Device.numQubits p.device

def storedTimeline (p : Processor δ α) : Result α (Timeline α) :=
  match p.timeline with
  | some t => .ok t
  | none => .error .noPulses

def clear (p : Processor δ α) : Processor δ α :=
  { p with timeline := none, globalPhase := Scalar.zero }

/-- Gives the device other parameters. Pulses made for the old ones are forgotten. -/
def configure (p : Processor δ α) (parameters : ρ) : Result α (Processor δ α) := do
  return clear { p with device := ← Device.configure p.device parameters }

def isGlobalPhase (g : Gate α) : Bool := g.kind = .globalPhase

/-- Sum of the angles of the global phases among native gates. -/
def phaseOf (native : List (Gate α)) : α :=
  Scalar.sum ((native.filter isGlobalPhase).filterMap (·.angle))

/-- Native gates that a device has to perform. -/
def drivenGates (native : List (Gate α)) : List (Gate α) :=
  native.filter fun g => !isGlobalPhase g

/-- Native gates of a circuit that fits the processor. -/
def nativeGates (p : Processor δ α) (c : Circuit α) : Result α (List (Gate α)) :=
  if c.numQubits ≠ p.numQubits then
    .error (.invalidConfig (.circuitSize c.numQubits p.numQubits))
  else do
    c.validate
    Device.resolve p.device c.gates

def trackedPhase (p : Processor δ α) (native : List (Gate α)) : α :=
  if p.config.correctGlobalPhase then phaseOf native else Scalar.zero

/-- Compiles a circuit and stores its timeline and its phase. -/
def load (p : Processor δ α) (c : Circuit α) : Result α (Processor δ α) := do
  let native ← p.nativeGates c
  let timeline ← Device.decompose p.device (drivenGates native)
  return { p with timeline := some timeline, globalPhase := p.trackedPhase native }

def loadEvents [ScalarText α] (p : Processor δ α) (c : Circuit α) : List Event :=
  match p.nativeGates c with
  | .error _ => []
  | .ok native =>
    Device.decomposeEvents p.device (drivenGates native) ++
    match Device.decompose p.device (drivenGates native) with
    | .error _ => []
    | .ok _ => [.debug (s!"loaded {c.gateCount} gates as {(drivenGates native).length} " ++
        "native gates, global phase " ++ ScalarText.fixed (p.trackedPhase native))]

/-- Stores a timeline that fits the device, without a phase. -/
def setTimeline (p : Processor δ α) (t : Timeline α) : Result α (Processor δ α) := do
  t.validate
  t.checkControls (Device.numControls p.device)
  return { p with timeline := some t, globalPhase := Scalar.zero }

/-- The controls, and the stored coefficients with a row for every column of the timeline. -/
def opsAndCoeffs (p : Processor δ α) : Result α (List (ControlOperator α) × Grid α) := do
  let t ← p.storedTimeline
  return (Device.controls p.device, t.coeffsBySegment)

/-- Samples of the stored timeline at the configured step. -/
def pulseRaster (p : Processor δ α) : Result α (Raster α) := do
  let t ← p.storedTimeline
  Raster.rasterize t (Device.labels p.device) p.config.rasterStep

def describe [ScalarText α] (p : Processor δ α) : String :=
  s!"Processor({Device.name p.device}, {p.numQubits} qubits, " ++
    (match p.timeline with
    | some t => t.describe ++ ")"
    | none => "no pulses)")

end Processor
end QubitPulse
