import QubitPulse.Gate.Basic
import QubitPulse.Journal
import QubitPulse.Timeline.Builder

/-!
# Decomposition of gates into pulses

A registry gives kinds of gates a handler, which appends the pulses of one gate to a builder. A
decomposer runs the handlers of a gate list in order.
-/
namespace QubitPulse

/-- Appends the pulses of one gate. The first argument holds what the device knows. -/
abbrev GateHandler (π α : Type) := π → Gate α → PulseBuilder α → Result α (PulseBuilder α)

structure Registry (π α : Type) where
  handler? : GateKind → Option (GateHandler π α)

namespace Registry

variable {π α : Type}

def empty : Registry π α := ⟨fun _ => none⟩

/-- A later handler for a kind replaces an earlier one. -/
def register (r : Registry π α) (kind : GateKind) (handler : GateHandler π α) : Registry π α :=
  ⟨fun k => if k = kind then some handler else r.handler? k⟩

def supports (r : Registry π α) (kind : GateKind) : Bool := (r.handler? kind).isSome

/-- Kinds with a handler, in the order of the vocabulary. -/
def kinds (r : Registry π α) : List GateKind := GateKind.all.filter r.supports

def size (r : Registry π α) : Nat := r.kinds.length

def isEmpty (r : Registry π α) : Bool := r.kinds.isEmpty

def describe (r : Registry π α) : String :=
  bracketed (r.kinds.map fun k => "\"" ++ k.name ++ "\"")

end Registry

structure Decomposer (π α : Type) where
  numQubits : Nat
  numControls : Nat
  context : π
  registry : Registry π α

namespace Decomposer

variable {π α : Type}

def supports (d : Decomposer π α) (kind : GateKind) : Bool := d.registry.supports kind

def appendGate (d : Decomposer π α) (b : PulseBuilder α) (g : Gate α) :
    Result α (PulseBuilder α) :=
  match d.registry.handler? g.kind with
  | none => .error (.unsupportedGate g.name)
  | some handler => handler d.context g b

/-- The timeline of a gate list, or the error of the first gate that has no pulses. -/
def decompose [Scalar α] (d : Decomposer π α) (gates : List (Gate α)) :
    Result α (Timeline α) := do
  let b ← gates.foldlM d.appendGate (.new d.numControls)
  b.finish

/-- What is noted during a decomposition: the task, and the timeline if there is one. -/
def events [Scalar α] [ScalarText α] (d : Decomposer π α) (gates : List (Gate α)) :
    List Event :=
  .debug (s!"decomposing {gates.length} gates on {d.numQubits} qubits into " ++
    s!"{d.numControls} controls") ::
  match d.decompose gates with
  | .ok t => [.debug ("decomposition produced " ++ t.describe)]
  | .error _ => []

end Decomposer
end QubitPulse
