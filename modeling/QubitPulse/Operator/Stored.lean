import QubitPulse.Operator.Embedding
import QubitPulse.Storage

/-!
# Matrices of any size

Operations on matrices whose size the caller names. They agree with those on registers where both
have a result, and fail where the result cannot be stored. An amplitude takes two words.
-/
namespace QubitPulse.Operator

variable {α : Type} [Scalar α]

@[specialize] def identityStored {β : Type} (dim : Nat) : Result β (Operator α) := do
  Storage.reserve 2 [dim, dim]
  return identity dim

/-- Tensor product of any two matrices. The lengths of its axes are machine words, which shows where
a long axis meets an empty one. -/
@[specialize] def kronStored (a b : Operator α) : Result α (Operator α) := do
  let rows := Word.wrap (a.rows * b.rows)
  let cols := Word.wrap (a.cols * b.cols)
  Storage.reserve 2 [rows, cols]
  return Grid.ofFn rows cols (kronEntry a b)

end QubitPulse.Operator
