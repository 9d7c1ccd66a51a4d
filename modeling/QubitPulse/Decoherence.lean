import QubitPulse.Parameter.Value

/-!
# Decoherence

Relaxation times T1 and coherence times T2 of the qubits of a register. Either may be absent, and an
infinite time stands for a channel without noise.
-/
namespace QubitPulse

structure Decoherence (α : Type) where
  numQubits : Nat
  t1 : Option (List α)
  t2 : Option (List α)
  deriving DecidableEq, Repr

namespace Decoherence

variable {α : Type}

def ideal (numQubits : Nat) : Decoherence α := ⟨numQubits, none, none⟩

def isIdeal (d : Decoherence α) : Bool := d.t1.isNone && d.t2.isNone

section Checks

variable [Scalar α]

def isBadTime (t : α) : Bool := Scalar.isNaN t || Scalar.le t Scalar.zero

/-- Checks the times of one kind: their number, then the first one that is not positive. -/
def checkTimes (numQubits : Nat) (label : String) : Option (List α) → Result α Unit
  | none => .ok ()
  | some ts =>
    if ts.length ≠ numQubits then
      .error (.invalidDecoherence (.wrongCount label ts.length numQubits))
    else match ts.zipIdx.find? (fun p => isBadTime p.1) with
      | some (t, q) => .error (.invalidDecoherence (.notPositive label q t))
      | none => .ok ()

/-- Coherence cannot outlast twice the relaxation time. -/
def checkBound (t1 t2 : List α) : Result α Unit :=
  match (t1.zip t2).zipIdx.find? (fun p => Scalar.lt (Scalar.two * p.1.1) p.1.2) with
  | some ((x, y), q) => .error (.invalidT2 q y x)
  | none => .ok ()

def validate (d : Decoherence α) : Result α Unit := do
  checkTimes d.numQubits "t1" d.t1
  checkTimes d.numQubits "t2" d.t2
  match d.t1, d.t2 with
  | some t1, some t2 => checkBound t1 t2
  | _, _ => .ok ()

/-- Relaxation times from parameters, one value for all qubits or a list. -/
def ofParams (numQubits : Nat) (t1 t2 : Option (ParamValue α)) : Result α (Decoherence α) := do
  let t1 ← t1.mapM (·.expand numQubits)
  let t2 ← t2.mapM (·.expand numQubits)
  let d : Decoherence α := ⟨numQubits, t1, t2⟩
  d.validate
  return d

def uniform (numQubits : Nat) (t1 t2 : α) : Result α (Decoherence α) :=
  ofParams numQubits (some (.scalar t1)) (some (.scalar t2))

/-- Rate of a channel; an infinite time has none. -/
def rate? (time : α) : Option α :=
  if Scalar.isPositive time then some (Scalar.one / time) else none

def relaxationRate? (d : Decoherence α) (qubit : Nat) : Option α := do
  let ts ← d.t1
  let t ← ts[qubit]?
  rate? t

/-- Pure dephasing rate of a qubit: what the coherence time demands beyond the share of relaxation.
There is none where relaxation explains all of it. -/
def dephasingRate? (d : Decoherence α) (qubit : Nat) : Option α := do
  let ts ← d.t2
  let t ← ts[qubit]?
  let r ← rate? t
  let share := (d.relaxationRate? qubit).getD Scalar.zero / Scalar.two
  let gamma := r - share
  if Scalar.lt Scalar.zero gamma then some gamma else none

end Checks

variable [ScalarText α]

def describe (d : Decoherence α) : String :=
  s!"Decoherence({d.numQubits}Q, t1=" ++ ParamValue.describeOption ParamValue.listing d.t1 ++
    ", t2=" ++ ParamValue.describeOption ParamValue.listing d.t2 ++ ")"

def toJson (d : Decoherence α) : Json.Value :=
  .record [("num_qubits", .nat d.numQubits),
    ("t1", .orNull (.list Json.Value.scalar) d.t1),
    ("t2", .orNull (.list Json.Value.scalar) d.t2)]

/-- Relaxation times of a document; they need not pass the check. -/
def ofJson? (v : Json.Value) : Option (Decoherence α) := do
  let [numQubits, t1, t2] ← v.fields? ["num_qubits", "t1", "t2"] false | none
  let numQubits ← Json.Value.required Json.Value.nat? numQubits
  let t1 ← Json.Value.optional (Json.Value.list? Json.Value.scalar?) t1
  let t2 ← Json.Value.optional (Json.Value.list? Json.Value.scalar?) t2
  return ⟨numQubits, t1, t2⟩

end Decoherence
end QubitPulse
