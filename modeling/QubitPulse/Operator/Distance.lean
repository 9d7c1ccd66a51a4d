import QubitPulse.Operator.Basic

/-!
# Distance up to a phase

Two operators that differ by a factor of modulus one act alike. The factor is estimated from the
entry of largest modulus of the second operator.
-/
namespace QubitPulse.Operator

variable {α : Type} [Scalar α]

/-- Storage index of the last entry of largest modulus, in the total order of scalars. -/
@[specialize] def pivot (a : Operator α) : Option Nat :=
  (List.range a.entries.size).foldl
    (fun best k => match best with
      | none => some k
      | some b =>
        if Scalar.totalLe (a.entries.getD b .zero).norm (a.entries.getD k .zero).norm then some k
        else some b)
    none

/-- Factor of modulus one that carries the first amplitude towards the second; one where either
vanishes. -/
@[inline] def phaseBetween (x y : Amplitude α) : Amplitude α :=
  if Scalar.lt Scalar.zero x.norm && Scalar.lt Scalar.zero y.norm then
    (y / x).divReal (y / x).norm
  else .one

/-- Factor that is applied to the first operator before the two are compared. -/
@[specialize] def relativePhase (a b : Operator α) : Amplitude α :=
  match pivot b with
  | none => .one
  | some k => phaseBetween (a.entries.getD k .zero) (b.entries.getD k .zero)

/-- Largest modulus of a difference of entries; none, for infinitely far, between operators of
different shapes. -/
@[specialize] def distanceUpToPhase? (a b : Operator α) : Option α :=
  if a.rows = b.rows && a.cols = b.cols then
    let phase := relativePhase a b
    some (Scalar.maximum ((List.range a.entries.size).map fun k =>
      (a.entries.getD k .zero * phase - b.entries.getD k .zero).norm))
  else none

end QubitPulse.Operator
