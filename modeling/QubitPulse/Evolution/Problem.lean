import QubitPulse.Operator.Control
import QubitPulse.State
import QubitPulse.Timeline.Basic

/-!
# Evolution problems

An evolution problem is all that a solver needs: the controls of a device, the timeline that drives
them, the noise and the initial state.
-/
namespace QubitPulse

structure EvolutionProblem (α : Type) where
  controls : List (ControlOperator α)
  timeline : Timeline α
  collapseOperators : List (Operator α)
  initialState : State α

namespace EvolutionProblem

variable {α : Type} [Scalar α]

/-- Adds a multiple of an operator. A coefficient of zero adds nothing at all. -/
@[specialize] def addTerm (h : Operator α) (term : ControlOperator α × α) : Operator α :=
  if Scalar.eq term.2 Scalar.zero then h
  else Grid.ofFn h.rows h.cols fun i j =>
    h.entry i j + Amplitude.ofReal term.2 * term.1.matrix.entry i j

/-- Sum of the controls, each times its coefficient. -/
@[specialize] def weightedSum (dim : Nat) (terms : List (ControlOperator α × α)) : Operator α :=
  terms.foldl addTerm (Operator.zero dim dim)

/-- Hamiltonian of a segment, if its coefficients are given. -/
@[specialize] def segmentHamiltonian? (p : EvolutionProblem α) (k : Nat) :
    Option (Operator α) :=
  (p.timeline.segmentCoeffs k).map fun column =>
    weightedSum p.initialState.dim (p.controls.zip column)

def isClosed (p : EvolutionProblem α) : Bool := p.collapseOperators.isEmpty

end EvolutionProblem

/-- An external solver: a name and an answer to every problem. -/
structure Solver (α β : Type) where
  name : String
  solve : EvolutionProblem α → Result α β

namespace Solver

def defaultName : String := "external"

end Solver
end QubitPulse
