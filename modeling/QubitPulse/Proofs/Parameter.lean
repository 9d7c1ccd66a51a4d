import QubitPulse.Parameter.Table
import QubitPulse.Proofs.Result
import QubitPulse.Proofs.Storage

/-!
# Values of parameters

A parameter that is given once stands for a list of equal values, one for each qubit. Only such a list asks
for room; one that was given has it already.
-/
namespace QubitPulse

namespace ParamValue

variable {α : Type}

/-- The values that are meant for a number of qubits. -/
def broadcast (n : ℕ) : ParamValue α → List α
  | scalar x => List.replicate n x
  | perQubit xs => xs

/-- The values for this number of qubits can be addressed. -/
def hasRoom (n : ℕ) : ParamValue α → Bool
  | scalar _ => 8 * n ≤ Word.mostBytes
  | perQubit _ => true

theorem expand_eq (v : ParamValue α) (n : ℕ) :
    v.expand n = if v.hasRoom n then .ok (v.broadcast n) else .error .tooLarge := by
  cases v with
  | perQubit xs => rfl
  | scalar x =>
    unfold expand Storage.reserve
    rw [Storage.fits_row]
    change _ = if decide (8 * n ≤ Word.mostBytes) then _ else _
    cases decide (8 * n ≤ Word.mostBytes) <;> rfl

theorem broadcast_of_expand {v : ParamValue α} {n : ℕ} {xs : List α} (h : v.expand n = .ok xs) :
    xs = v.broadcast n := by
  rw [expand_eq] at h
  split_ifs at h
  exact (Except.ok.inj h).symm

end ParamValue
end QubitPulse
