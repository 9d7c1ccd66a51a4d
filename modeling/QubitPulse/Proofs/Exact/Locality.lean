import Mathlib
import QubitPulse.Proofs.Exact.Register

/-!
# Matrices on some of the qubits

The matrices that act on a set of qubits and leave the others alone form an algebra. Those on sets
without a common qubit commute.
-/
namespace QubitPulse

open Matrix Kronecker

variable {n : ℕ} {S T : Set (Fin n)} {q r : Fin n}

/-- The matrices that are made of matrices on single qubits of a set. -/
def actingOn (S : Set (Fin n)) : Subalgebra ℂ (Matrix (Basis n) (Basis n) ℂ) :=
  Algebra.adjoin ℂ {M | ∃ q ∈ S, ∃ A, M = onQubit q A}

theorem onQubit_mem_actingOn (hq : q ∈ S) (A : LocalMatrix) : onQubit q A ∈ actingOn S :=
  Algebra.subset_adjoin ⟨q, hq, A, rfl⟩

theorem actingOn_mono (h : S ⊆ T) : actingOn S ≤ actingOn T :=
  Algebra.adjoin_mono fun _ ⟨q, hq, A, hA⟩ => ⟨q, h hq, A, hA⟩

theorem onQubit_commute (h : q ≠ r) (A B : LocalMatrix) : Commute (onQubit q A) (onQubit r B) := by
  have hfactors : Commute (Function.update 1 q A : Fin n → LocalMatrix) (Function.update 1 r B) :=
    Pi.mulSingle_commute (f := fun _ => LocalMatrix) h A B
  change onQubit q A * onQubit r B = onQubit r B * onQubit q A
  rw [onQubit_eq_tensorOf, onQubit_eq_tensorOf, tensorOf_mul, tensorOf_mul, hfactors.eq]

/-- Matrices on sets without a common qubit commute. -/
theorem commute_of_disjoint (h : Disjoint S T) {M N : Matrix (Basis n) (Basis n) ℂ}
    (hM : M ∈ actingOn S) (hN : N ∈ actingOn T) : Commute M N := by
  refine Algebra.commute_of_mem_adjoin_of_forall_mem_commute hN ?_
  rintro _ ⟨r, hr, B, rfl⟩
  refine (Algebra.commute_of_mem_adjoin_of_forall_mem_commute hM ?_).symm
  rintro _ ⟨q, hq, A, rfl⟩
  exact onQubit_commute (h.ne_of_mem hq hr).symm B A

/-- Acting on a pair by a tensor product is acting on one qubit and on the other. -/
theorem onPair_kronecker (h : q ≠ r) (A B : LocalMatrix) :
    onPair q r (A ⊗ₖ B) = onQubit q A * onQubit r B := by
  rw [onPair_eq_tensorOf h, onQubit_eq_tensorOf, onQubit_eq_tensorOf, tensorOf_mul]
  congr 1
  funext s
  by_cases hs : s = r
  · subst hs
    simp [Function.update_of_ne h.symm]
  · simp [Function.update_of_ne hs]

theorem onPair_mem_actingOn (h : q ≠ r) (hq : q ∈ S) (hr : r ∈ S) (A : PairMatrix) :
    onPair q r A ∈ actingOn S := by
  induction A using Matrix.induction_on' with
  | h_zero =>
    rw [onPair_zero]
    exact zero_mem _
  | h_add A B hA hB =>
    rw [onPair_add]
    exact add_mem hA hB
  | h_std_basis i j x =>
    rw [← mul_one x, ← Matrix.single_kronecker_single i.1 j.1 i.2 j.2 x 1, onPair_kronecker h]
    exact mul_mem (onQubit_mem_actingOn hq _) (onQubit_mem_actingOn hr _)

end QubitPulse
