import QubitPulse.Error

/-!
# Updates in place

An update works on a value that its user holds. It reads the value, may fail at any of its steps and
overwrites parts of the value in between. Nothing is undone: what was written before a failure stays
written.
-/
namespace QubitPulse

/-- An operation on a held value of type `σ`. -/
abbrev Update (σ α β : Type) := EStateM (Error α) σ β

namespace Update

variable {σ τ α β : Type}

/-- A step that may fail and writes nothing. -/
def attempt (r : Result α β) : Update σ α β := fun s =>
  match r with
  | .ok x => .ok x s
  | .error e => .error e s

/-- An update of a part of the held value. Writes to the part are writes to the whole, also those
before a failure. -/
def onPart (part : σ → τ) (replace : τ → σ → σ) (u : Update τ α β) : Update σ α β := fun s =>
  match u (part s) with
  | .ok x t => .ok x (replace t s)
  | .error e t => .error e (replace t s)

/-- What the caller is given. -/
def result (u : Update σ α β) (s : σ) : Result α β :=
  match u s with
  | .ok x _ => .ok x
  | .error e _ => .error e

/-- The held value afterwards, whether or not the update succeeded. -/
def after (u : Update σ α β) (s : σ) : σ :=
  match u s with
  | .ok _ t => t
  | .error _ t => t

end Update
end QubitPulse
