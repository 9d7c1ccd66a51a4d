import QubitPulse.Gate.Basic

/-!
# Native gates

Rotations about x and z and the exchange gates are native to a chain. The other single-qubit gates
are products of rotations and a global phase; gates that have no such product are passed on as they
are.
-/
namespace QubitPulse.Gate

variable {α : Type} [Scalar α]

def halfPi : α := Scalar.pi / Scalar.two

/-- A rotation about y is a rotation about x seen from axes turned by a right angle about z. -/
def ryAsRx (q : Nat) (theta : α) : List (Gate α) :=
  [.rz q (-halfPi), .rx q theta, .rz q halfPi]

/-- Native gates in place of a well-formed gate, in the order in which they act. -/
def expand (g : Gate α) : Result α (List (Gate α)) :=
  match g.kind with
  | .x => do return [.rx (← g.target) Scalar.pi, .globalPhase halfPi]
  | .y => do return ryAsRx (← g.target) Scalar.pi ++ [.globalPhase halfPi]
  | .z => do return [.rz (← g.target) Scalar.pi, .globalPhase halfPi]
  | .h => do
    return ryAsRx (← g.target) halfPi ++ [.rx (← g.target) Scalar.pi, .globalPhase halfPi]
  | .ry => do return ryAsRx (← g.target) (← g.requireAngle)
  | _ => .ok [g]

/-- Native gates in place of a gate, which has to be well-formed. -/
def resolve (g : Gate α) : Result α (List (Gate α)) := do
  g.validate
  g.expand

def resolveAll (gates : List (Gate α)) : Result α (List (Gate α)) :=
  (gates.mapM resolve).map List.flatten

end QubitPulse.Gate
