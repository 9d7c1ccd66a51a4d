import QubitPulse.Gate.Basic
import QubitPulse.Journal
import QubitPulse.Operator.Control
import QubitPulse.Timeline.Basic

/-!
# Devices

What a processor has to know of the hardware: its controls, how it replaces gates by native ones, and
how it turns native gates into a timeline.
-/
namespace QubitPulse

/-- Devices of type `δ` with parameters of type `ρ`. -/
class Device (δ : Type) (α ρ : outParam Type) where
  name : δ → String
  numQubits : δ → Nat
  /-- Control operators, in the order of the rows of a timeline. -/
  controls : δ → List (ControlOperator α)
  resolve : δ → List (Gate α) → Result α (List (Gate α))
  decompose : δ → List (Gate α) → Result α (Timeline α)
  decomposeEvents : δ → List (Gate α) → List Event
  /-- The device with other parameters. Parameters that are refused leave no other device behind. -/
  configure : δ → ρ → Result α δ
  describe : δ → String

namespace Device

variable {δ α ρ : Type} [Device δ α ρ]

def numControls (d : δ) : Nat := (controls d).length

def labels (d : δ) : List String := (controls d).map (·.label)

end Device
end QubitPulse
