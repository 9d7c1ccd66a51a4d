import QubitPulse.Scalar
import QubitPulse.Json.Record

/-!
# Amplitudes

Complex numbers over the scalars, with the textbook formulas for their arithmetic.
-/
namespace QubitPulse

structure Amplitude (α : Type) where
  re : α
  im : α
  deriving DecidableEq, Repr

namespace Amplitude

variable {α : Type} [Scalar α]

@[inline] def zero : Amplitude α := ⟨Scalar.zero, Scalar.zero⟩

@[inline] def one : Amplitude α := ⟨Scalar.one, Scalar.zero⟩

@[inline] def i : Amplitude α := ⟨Scalar.zero, Scalar.one⟩

@[inline] def ofReal (x : α) : Amplitude α := ⟨x, Scalar.zero⟩

@[inline] def add (z w : Amplitude α) : Amplitude α := ⟨z.re + w.re, z.im + w.im⟩

@[inline] def sub (z w : Amplitude α) : Amplitude α := ⟨z.re - w.re, z.im - w.im⟩

@[inline] def neg (z : Amplitude α) : Amplitude α := ⟨-z.re, -z.im⟩

@[inline] def mul (z w : Amplitude α) : Amplitude α :=
  ⟨z.re * w.re - z.im * w.im, z.re * w.im + z.im * w.re⟩

@[inline] def normSq (z : Amplitude α) : α := z.re * z.re + z.im * z.im

/-- Quotient, by the conjugate of the divisor over its squared modulus. -/
@[inline] def div (z w : Amplitude α) : Amplitude α :=
  let d := w.normSq
  ⟨(z.re * w.re + z.im * w.im) / d, (z.im * w.re - z.re * w.im) / d⟩

instance : Add (Amplitude α) := ⟨add⟩
instance : Sub (Amplitude α) := ⟨sub⟩
instance : Neg (Amplitude α) := ⟨neg⟩
instance : Mul (Amplitude α) := ⟨mul⟩
instance : Div (Amplitude α) := ⟨div⟩

@[inline] def conj (z : Amplitude α) : Amplitude α := ⟨z.re, -z.im⟩

@[inline] def norm (z : Amplitude α) : α := Scalar.hypot z.re z.im

@[inline] def scale (z : Amplitude α) (x : α) : Amplitude α := ⟨z.re * x, z.im * x⟩

@[inline] def divReal (z : Amplitude α) (x : α) : Amplitude α := ⟨z.re / x, z.im / x⟩

@[inline] def isFinite (z : Amplitude α) : Bool := Scalar.isFinite z.re && Scalar.isFinite z.im

@[inline] def isZero (z : Amplitude α) : Bool :=
  Scalar.eq z.re Scalar.zero && Scalar.eq z.im Scalar.zero

/-- The amplitude of modulus one with the given argument. -/
def ofPhase (phase : α) : Amplitude α :=
  ⟨Scalar.one * Scalar.cos phase, Scalar.one * Scalar.sin phase⟩

@[specialize] def sum (zs : List (Amplitude α)) : Amplitude α :=
  zs.foldl add zero

/-- The sum `f lane + f (lane + 8) + …` with one term from each block of eight. -/
@[specialize] def laneSum (blocks lane : Nat) (f : Nat → Amplitude α) : Amplitude α :=
  (List.range blocks).foldl (fun z b => z + f (8 * b + lane)) zero

/-- The sum `f 0 + … + f (n - 1)`, with the blocks of eight summed in eight lanes side by side. The
lanes are added in pairs, and what fills no block is added at the end. -/
@[specialize] def sumInLanes (n : Nat) (f : Nat → Amplitude α) : Amplitude α :=
  let blocks := n / 8
  let pair (lane : Nat) := laneSum blocks lane f + laneSum blocks (lane + 4) f
  let whole := zero + pair 0 + pair 1 + pair 2 + pair 3
  (List.range (n % 8)).foldl (fun z r => z + f (8 * blocks + r)) whole

/-- The amplitude times one. On floats this settles a sum of products that has left their range: where
one part is infinite, the other is undefined. -/
@[inline] def settled (z : Amplitude α) : Amplitude α := mul z one

section Documents

variable [ScalarText α]

def toJson (z : Amplitude α) : Json.Value :=
  .array [Json.Value.scalar z.re, Json.Value.scalar z.im]

def ofJson? : Json.Value → Option (Amplitude α)
  | .array [re, im] => do
    let re ← Json.Value.scalar? re
    let im ← Json.Value.scalar? im
    return ⟨re, im⟩
  | _ => none

end Documents
end Amplitude
end QubitPulse
