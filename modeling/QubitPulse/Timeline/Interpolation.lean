import QubitPulse.Json.Value
import QubitPulse.Word

/-!
# Interpolation of pulse coefficients

How the coefficients of a timeline are to be read between its breakpoints.
-/
namespace QubitPulse

inductive Interpolation where
  /-- Each column holds over one segment. -/
  | step
  /-- Columns are samples at the breakpoints of a cubic spline. -/
  | cubic
  deriving DecidableEq, Repr

namespace Interpolation

instance : Inhabited Interpolation := ⟨.step⟩

def name : Interpolation → String
  | .step => "step_func"
  | .cubic => "cubic"

/-- Whether a timeline with this many breakpoints can have this many columns. Steps need one column
a segment and may have one more, a spline needs one column a breakpoint. -/
def accepts (i : Interpolation) (breakpoints columns : Nat) : Bool :=
  match i with
  | .step => columns = breakpoints || columns + 1 = breakpoints
  | .cubic => columns = breakpoints

/-- The same for counts that are machine words: one more column than the largest word is none. -/
def acceptsWords (i : Interpolation) (breakpoints columns : Nat) : Bool :=
  match i with
  | .step => columns = breakpoints || Word.wrap (columns + 1) = breakpoints
  | .cubic => columns = breakpoints

theorem acceptsWords_eq_accepts (i : Interpolation) (breakpoints : Nat) {columns : Nat}
    (h : columns + 1 < Word.size) :
    i.acceptsWords breakpoints columns = i.accepts breakpoints columns := by
  cases i <;> simp [acceptsWords, accepts, Word.wrap_of_lt h]

/-- The column counts that are accepted, in words. -/
def expectation (i : Interpolation) (breakpoints : Nat) : String :=
  match i with
  | .step => s!"{breakpoints - 1} or {breakpoints} columns (step_func)"
  | .cubic => s!"{breakpoints} columns (cubic)"

def toJson (i : Interpolation) : Json.Value := .text i.name

def ofJson? (v : Json.Value) : Option Interpolation :=
  match v.name? with
  | some "step_func" => some .step
  | some "cubic" => some .cubic
  | _ => none

end Interpolation
end QubitPulse
