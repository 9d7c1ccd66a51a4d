import QubitPulse.Json.Reader
import QubitPulse.Json.Stored
import QubitPulse.Json.Writer
import QubitPulse.Operator.Basic
import QubitPulse.Storage

/-!
# States of a register

A pure state is a vector of amplitudes, a mixed state a density matrix.
-/
namespace QubitPulse

inductive State (α : Type) where
  | ket (amplitudes : Array (Amplitude α))
  | density (matrix : Operator α)
  deriving DecidableEq

namespace State

variable {α : Type} [Scalar α]

def basisKet (dim index : Nat) : State α :=
  .ket (Array.ofFn (n := dim) fun i => if i.val = index then .one else .zero)

/-- A basis state by its number. A number too large is reported by the dimension it would need, as a
machine word; an amplitude takes two words. -/
def basis (numQubits index : Nat) : Result α (State α) :=
  let dim := registerDim numQubits
  if dim ≤ index then .error (.dimensionMismatch dim (Word.wrap (index + 1)))
  else do
    Storage.reserve 2 [dim]
    return basisKet dim index

def ground (numQubits : Nat) : Result α (State α) := basis numQubits 0

def dim : State α → Nat
  | ket v => v.size
  | density m => m.rows

def isDensity : State α → Bool
  | ket _ => false
  | density _ => true

/-- Whether the state has the form of one: every vector has, and every square matrix. -/
def isSquare : State α → Bool
  | ket _ => true
  | density m => m.isSquare

def checkDim (s : State α) (expected : Nat) : Result α Unit :=
  if !s.isSquare || s.dim ≠ expected then .error (.dimensionMismatch expected s.dim) else .ok ()

/-- The state after an operator: `u ψ` for a vector, `u ρ u†` for a density matrix. -/
@[specialize] def evolve (s : State α) (u : Operator α) : Result α (State α) := do
  s.checkDim u.rows
  if u.cols ≠ s.dim then .error .incompatibleProduct
  else match s with
    | ket v => .ok (.ket (u.apply v))
    | density m => .ok (.density ((u.mul m).mul u.dagger))

@[specialize] def outer (v : Array (Amplitude α)) : Operator α :=
  Grid.ofFn v.size v.size fun i j => v.getD i .zero * (v.getD j .zero).conj

def toDensity : State α → Operator α
  | ket v => outer v
  | density m => m

def probabilities : State α → List α
  | ket v => v.toList.map Amplitude.normSq
  | density m => (List.range (min m.rows m.cols)).map fun i => (m.entry i i).re

/-- Inner product, conjugate in the first vector. -/
def inner (v w : List (Amplitude α)) : Amplitude α :=
  Amplitude.sum ((v.zip w).map fun p => p.1.conj * p.2)

/-- Probability of finding the state in a target vector. -/
@[specialize] def fidelity (s : State α) (target : Array (Amplitude α)) : Result α α := do
  s.checkDim target.size
  match s with
  | ket v => .ok (inner target.toList v.toList).normSq
  | density m => .ok (inner target.toList (m.apply target).toList).re

def describe : State α → String
  | ket v => s!"Ket(dim={v.size})"
  | density m => s!"Density(dim={m.rows})"

variable [ScalarText α]

def toJson : State α → Json.Value
  | ket v => .record [("Ket", Json.Stored.ofList Amplitude.toJson v.toList)]
  | density m => .record [("Density", Json.Stored.ofGrid Amplitude.toJson m)]

def ofJson? (v : Json.Value) : Option (State α) := do
  match ← v.soleMember? with
  | ("Ket", v) => return .ket (← Json.Stored.list? Amplitude.ofJson? v).toArray
  | ("Density", v) => return .density (← Json.Stored.grid? Amplitude.ofJson? v)
  | _ => none

end State
end QubitPulse
