import QubitPulse.Amplitude
import QubitPulse.Grid

/-!
# Operators on a register

An operator is a grid of amplitudes. Its rows and columns are the basis states of the register, with
qubit 0 as the most significant bit of a basis state.
-/
namespace QubitPulse

/-- Dimension of the state space of a register. -/
def registerDim (numQubits : Nat) : Nat := Nat.pow 2 numQubits

abbrev Operator (α : Type) := Grid (Amplitude α)

namespace Operator

variable {α : Type} [Scalar α]

/-- Entry at a position; outside the matrix it is zero. -/
@[inline] def entry (a : Operator α) (i j : Nat) : Amplitude α := a.getD i j .zero

def isSquare (a : Operator α) : Bool := a.rows = a.cols

@[specialize] def identity (dim : Nat) : Operator α :=
  Grid.ofFn dim dim fun i j => if i = j then Amplitude.one else Amplitude.zero

@[specialize] def zero (rows cols : Nat) : Operator α :=
  Grid.ofFn rows cols fun _ _ => Amplitude.zero

def two (a b c d : Amplitude α) : Operator α :=
  ⟨2, 2, #[a, b, c, d], rfl⟩

def sigmaX : Operator α := two .zero .one .one .zero

def sigmaY : Operator α := two .zero (-Amplitude.i) .i .zero

def sigmaZ : Operator α := two .one .zero .zero (-Amplitude.one)

/-- Takes the excited state of a qubit to its ground state. -/
def sigmaMinus : Operator α := two .zero .one .zero .zero

@[specialize] def add (a b : Operator α) : Operator α :=
  Grid.ofFn a.rows a.cols fun i j => a.entry i j + b.entry i j

@[specialize] def sub (a b : Operator α) : Operator α :=
  Grid.ofFn a.rows a.cols fun i j => a.entry i j - b.entry i j

@[specialize] def isFinite (a : Operator α) : Bool :=
  a.entries.all Amplitude.isFinite

/-- Entries of a row with their columns. Zeros are left out unless they are asked for. -/
@[specialize] def rowTerms (a : Operator α) (keepZeros : Bool) (i : Nat) :
    List (Nat × Amplitude α) :=
  (List.range a.cols).filterMap fun k =>
    let z := a.entry i k
    if keepZeros || !z.isZero then some (k, z) else none

/-- Adds the terms of a row, each times the entry of a column in its place. A term adds to either
part of the sum its two products in turn, those of the imaginary parts with a minus, and each of
them with one rounding. -/
@[specialize] def addTerms (b : Operator α) (j : Nat) :
    List (Nat × Amplitude α) → α → α → Amplitude α
  | [], re, im => (Amplitude.mk re im).settled
  | (k, z) :: rest, re, im =>
    let w := b.entry k j
    addTerms b j rest (Scalar.mulAdd (-z.im) w.im (Scalar.mulAdd z.re w.re re))
      (Scalar.mulAdd z.im w.re (Scalar.mulAdd z.re w.im im))

/-- Matrix product; the columns of the first factor are the rows of the second. A zero in the first
factor adds nothing to a sum where the second factor is finite, so there it is left out. -/
@[specialize] def mul (a b : Operator α) : Operator α :=
  let keepZeros := !b.isFinite
  let terms := Array.ofFn (n := a.rows) fun i => a.rowTerms keepZeros i.val
  Grid.ofFn a.rows b.cols fun i j =>
    addTerms b j (terms.getD i []) Scalar.zero Scalar.zero

@[specialize] def apply (a : Operator α) (v : Array (Amplitude α)) : Array (Amplitude α) :=
  Array.ofFn (n := a.rows) fun i =>
    (Amplitude.sumInLanes a.cols fun k => a.entry i.val k * v.getD k .zero).settled

@[specialize] def scale (a : Operator α) (z : Amplitude α) : Operator α :=
  a.map (· * z)

@[specialize] def scaleReal (a : Operator α) (x : α) : Operator α :=
  a.map (·.scale x)

@[specialize] def divReal (a : Operator α) (x : α) : Operator α :=
  a.map (·.divReal x)

@[specialize] def dagger (a : Operator α) : Operator α :=
  Grid.ofFn a.cols a.rows fun i j => (a.entry j i).conj

@[specialize] def within (a : Operator α) (tolerance : α) : Bool :=
  a.entries.all fun z => Scalar.le z.norm tolerance

/-- Equal to its conjugate transpose, up to the tolerance in every entry. -/
@[specialize] def isHermitian (a : Operator α) (tolerance : α) : Bool :=
  a.isSquare && (sub a (dagger a)).within tolerance

/-- Inverse to its conjugate transpose, up to the tolerance in every entry. -/
@[specialize] def isUnitary (a : Operator α) (tolerance : α) : Bool :=
  a.isSquare && (sub (mul (dagger a) a) (identity a.rows)).within tolerance

end Operator
end QubitPulse
