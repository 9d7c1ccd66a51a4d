import QubitPulse.Error
import QubitPulse.Word

/-!
# Storage

An array is stored in one piece. An operation whose result has a length that the caller names asks
for room first and fails where no such array can be addressed. One whose result is bounded by the
arrays it is given finds room where they did, and does not ask.
-/
namespace QubitPulse.Storage

/-- Whether an array along these axes can be addressed whose entries take the given number of words
of eight bytes. -/
def fits (words : Nat) (axes : List Nat) : Bool :=
  Word.addressable axes && 8 * words * axes.foldl (· * ·) 1 ≤ Word.mostBytes

/-- Asks for room for an array along these axes. -/
def reserve {α : Type} (words : Nat) (axes : List Nat) : Result α Unit :=
  if fits words axes then .ok () else .error .tooLarge

/-- A row of entries finds room where its bytes can be counted. -/
theorem reserve_row {α : Type} {words n : Nat} (hw : 0 < words)
    (h : 8 * words * n ≤ Word.mostBytes) : reserve (α := α) words [n] = .ok () := by
  have hn : n ≤ 8 * words * n := Nat.le_mul_of_pos_left n (by omega)
  have ha : Word.addressable [n] = true := by
    by_cases h0 : n = 0
    · subst h0; decide
    · simp [Word.addressable, h0]; omega
  simp [reserve, fits, ha, h]

end QubitPulse.Storage
