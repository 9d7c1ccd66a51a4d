import QubitPulse.Evolution.Problem
import QubitPulse.Operator.Exponential

/-!
# Analytical evolution

A step-function timeline has a constant Hamiltonian on every segment, so the evolution is a product
of matrix exponentials, later segments to the left, times the tracked global phase. How a single
exponential is computed is a parameter.
-/
namespace QubitPulse

/-- Gives the evolution under a constant Hamiltonian for a time. -/
abbrev Propagation (α : Type) := Operator α → α → Result α (Operator α)

structure AnalyticalEvolution (α : Type) where
  propagators : List (Operator α)
  globalPhase : α
  total : Operator α
  finalState : State α

namespace AnalyticalEvolution

variable {α : Type} [Scalar α]

/-- Hamiltonian of a segment; without coefficients nothing is driven. -/
@[specialize] def hamiltonian (p : EvolutionProblem α) (k : Nat) : Operator α :=
  (p.segmentHamiltonian? k).getD (Operator.zero p.initialState.dim p.initialState.dim)

/-- Propagators of the segments from number `k` on, given their durations. -/
@[specialize] def propagatorsFrom (propagate : Propagation α) (p : EvolutionProblem α) :
    Nat → List α → Result α (List (Operator α))
  | _, [] => .ok []
  | k, dt :: rest => do
    let u ← propagate (hamiltonian p k) dt
    let us ← propagatorsFrom propagate p (k + 1) rest
    return u :: us

/-- Product of propagators given in order of time. -/
@[specialize] def timeOrdered (dim : Nat) (us : List (Operator α)) : Operator α :=
  us.foldl (fun total u => u.mul total) (Operator.identity dim)

/-- The first control that does not act on states of this dimension. -/
def misfit? (controls : List (ControlOperator α)) (dim : Nat) : Option (ControlOperator α) :=
  controls.find? (·.dim ≠ dim)

/-- Evolves an initial state along a timeline, segment by segment as given. -/
@[specialize] def computeWith (propagate : Propagation α) (controls : List (ControlOperator α))
    (timeline : Timeline α) (initial : State α) (globalPhase : α) :
    Result α (AnalyticalEvolution α) :=
  if timeline.interpolation ≠ .step then
    .error (.invalidPulse (.notSteps timeline.interpolation))
  else do
    timeline.checkControls controls.length
    match misfit? controls initial.dim with
    | some c => .error (.dimensionMismatch initial.dim c.dim)
    | none => do
      Storage.reserve 2 [initial.dim, initial.dim]
      let us ← propagatorsFrom propagate ⟨controls, timeline, [], initial⟩ 0 timeline.durations
      let total := (timeOrdered initial.dim us).scale (Amplitude.ofPhase globalPhase)
      let final ← initial.evolve total
      return ⟨us, globalPhase, total, final⟩

@[specialize] def compute (controls : List (ControlOperator α)) (timeline : Timeline α)
    (initial : State α) (globalPhase : α) : Result α (AnalyticalEvolution α) :=
  computeWith Operator.propagator controls timeline initial globalPhase

end AnalyticalEvolution
end QubitPulse
