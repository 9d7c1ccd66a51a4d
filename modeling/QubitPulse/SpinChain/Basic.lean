import QubitPulse.Device
import QubitPulse.Operator.Embedding
import QubitPulse.SpinChain.Layout
import QubitPulse.SpinChain.Native
import QubitPulse.SpinChain.Pulses
import QubitPulse.Update

/-!
# Spin chains

A chain of qubits, each driven along x and z, with an exchange of neighbours that can be switched on
pair by pair.
-/
namespace QubitPulse

structure SpinChain (α : Type) where
  layout : ChainLayout
  given : ChainStrengths α
  controls : List (ControlOperator α)
  decomposer : Decomposer (ChainContext α) α

namespace SpinChain

variable {α : Type} [Scalar α]

/-- Largest chain, bounded by the size of its operators. -/
def mostQubits : Nat := 8

/-- A single-qubit operator on one qubit of a register, as a control. -/
@[specialize] def localControl (label : String) (op : Operator α) (numQubits q : Nat) :
    Result α (ControlOperator α) := do
  ControlOperator.new (label ++ toString q) (← Operator.embed op q numQubits) numQubits

/-- The exchange of a coupled pair, as a control. -/
@[specialize] def exchangeControl (numQubits : Nat) (pair : (Nat × Nat) × Nat) :
    Result α (ControlOperator α) := do
  let ((a, b), k) := pair
  let xx ← Operator.embedFactors [(a, .sigmaX), (b, .sigmaX)] numQubits
  let yy ← Operator.embedFactors [(a, .sigmaY), (b, .sigmaY)] numQubits
  ControlOperator.new s!"sxsy{k}" (xx.add yy) numQubits

/-- Controls of a chain: x on every qubit, z on every qubit, the exchange of every pair. -/
@[specialize] def buildControls (numQubits : Nat) (couplings : List (Nat × Nat)) :
    Result α (List (ControlOperator α)) := do
  let xs ← (List.range numQubits).mapM (localControl "sx" .sigmaX numQubits)
  let zs ← (List.range numQubits).mapM (localControl "sz" .sigmaZ numQubits)
  let exchanges ← couplings.zipIdx.mapM (exchangeControl numQubits)
  return xs ++ zs ++ exchanges

/-- Decomposer of a chain with these strengths in angular units. -/
def decomposerOf (numQubits numControls : Nat) (couplings : List (Nat × Nat))
    (strengths : ParameterTable α) : Decomposer (ChainContext α) α :=
  ⟨numQubits, numControls, ⟨numQubits, couplings, strengths⟩, ChainContext.registry⟩

/-- A chain of one to eight qubits with usable strengths. -/
@[specialize] def build (numQubits : Nat) (layout : ChainLayout) (given : ChainStrengths α) :
    Result α (SpinChain α) :=
  if numQubits = 0 || mostQubits < numQubits then
    .error (.invalidConfig (.chainSize mostQubits numQubits))
  else do
    let couplings := layout.couplings numQubits
    let strengths ← given.normalize numQubits couplings.length
    let controls ← buildControls numQubits couplings
    return ⟨layout, given, controls,
      decomposerOf numQubits controls.length couplings strengths⟩

def numQubits (c : SpinChain α) : Nat := c.decomposer.numQubits

def numControls (c : SpinChain α) : Nat := c.controls.length

def couplings (c : SpinChain α) : List (Nat × Nat) := c.decomposer.context.couplings

def strengths (c : SpinChain α) : ParameterTable α := c.decomposer.context.strengths

def couplingIndex (c : SpinChain α) (q₁ q₂ : Nat) : Result α Nat :=
  c.decomposer.context.couplingIndex q₁ q₂

def configure (c : SpinChain α) (given : ChainStrengths α) : Result α (SpinChain α) := do
  let strengths ← given.normalize c.numQubits c.couplings.length
  return { c with
    given := given
    decomposer := decomposerOf c.numQubits c.numControls c.couplings strengths }

/-- Gives a chain other strengths where it is held. -/
def configureInPlace (given : ChainStrengths α) : Update (SpinChain α) α Unit := do
  let c ← get
  let strengths ← Update.attempt (given.normalize c.numQubits c.couplings.length)
  modify fun c => { c with
    decomposer := decomposerOf c.numQubits c.numControls c.couplings strengths }
  modify fun c => { c with given := given }

def name (c : SpinChain α) : String :=
  match c.layout with
  | .linear => "linear_spin_chain"
  | .circular => "circular_spin_chain"

def describe (c : SpinChain α) : String :=
  s!"SpinChain({c.layout.name}, {c.numQubits} qubits, {c.numControls} controls)"

def buildEvents (c : SpinChain α) : List Event :=
  [.debug s!"built {c.layout.name} spin chain with {c.numQubits} qubits and {c.numControls} controls"]

instance [ScalarText α] : Device (SpinChain α) α (ChainStrengths α) where
  name := name
  numQubits := numQubits
  controls := controls
  resolve _ := Gate.resolveAll
  decompose c := c.decomposer.decompose
  decomposeEvents c := c.decomposer.events
  configure := configure
  describe := describe

end SpinChain
end QubitPulse
