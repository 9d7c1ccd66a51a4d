import Mathlib
import QubitPulse.Proofs.Exact.Series

/-!
# The column norm

The norm that halving and truncation depend on is the largest sum of moduli over a column. In exact
arithmetic it is the operator norm of the transposed matrix for the maximum norm. It does not depend on how
basis states are numbered, nor on the register that a matrix of one qubit is placed on.
-/
namespace QubitPulse

open Matrix
open scoped Matrix.Norms.Operator

namespace Scalar

theorem max_real (x y : ℝ) : max x y = Max.max x y := by
  change (if decide (x < y) = true then y else x) = Max.max x y
  rcases lt_or_ge x y with h | h
  · rw [if_pos (by simpa using h), max_eq_right h.le]
  · rw [if_neg (by simpa using h), max_eq_left h]

theorem maximum_le_iff {xs : List ℝ} {c : ℝ} : maximum xs ≤ c ↔ 0 ≤ c ∧ ∀ x ∈ xs, x ≤ c := by
  have hfold : ∀ (xs : List ℝ) (start : ℝ),
      xs.foldl max start ≤ c ↔ start ≤ c ∧ ∀ x ∈ xs, x ≤ c := by
    intro xs
    induction xs with
    | nil => simp
    | cons x xs ih =>
      intro start
      rw [List.foldl_cons, ih, max_real, max_le_iff, List.forall_mem_cons, and_assoc]
  exact hfold xs zero

theorem sumTo_real (n : ℕ) (f : ℕ → ℝ) : sumTo n f = ∑ i ∈ Finset.range n, f i := by
  induction n with
  | zero => rfl
  | succ n ih => rw [Finset.sum_range_succ, ← ih]; rfl

end Scalar

theorem Amplitude.norm_real (z : Amplitude ℝ) : z.norm = ‖z.toComplex‖ := by
  rw [Complex.norm_eq_sqrt_sq_add_sq]
  rfl

/-- Largest sum of moduli over a column. -/
noncomputable def columnNorm {ι : Type*} [Fintype ι] (A : Matrix ι ι ℂ) : ℝ := ‖Aᵀ‖

section ColumnNorm

variable {ι κ : Type*} [Fintype ι] [Fintype κ]

theorem columnNorm_le_iff {A : Matrix ι ι ℂ} {c : ℝ} :
    columnNorm A ≤ c ↔ 0 ≤ c ∧ ∀ j, ∑ i, ‖A i j‖ ≤ c := by
  rw [columnNorm, linfty_opNorm_def]
  constructor
  · intro h
    refine ⟨(NNReal.coe_nonneg _).trans h, fun j => ?_⟩
    have hcolumn := Finset.le_sup (f := fun j => ∑ i, ‖Aᵀ j i‖₊) (Finset.mem_univ j)
    refine le_trans ?_ ((NNReal.coe_le_coe.mpr hcolumn).trans h)
    simp
  · rintro ⟨hc, h⟩
    lift c to NNReal using hc
    refine NNReal.coe_le_coe.mpr (Finset.sup_le fun j _ => ?_)
    rw [← NNReal.coe_le_coe]
    simpa using h j

theorem columnNorm_submatrix (A : Matrix ι ι ℂ) (e : κ ≃ ι) :
    columnNorm (A.submatrix e e) = columnNorm A := by
  refine eq_of_forall_ge_iff fun c => ?_
  rw [columnNorm_le_iff, columnNorm_le_iff, ← e.forall_congr_right]
  simp only [submatrix_apply, fun j => e.sum_comp fun i => ‖A i (e j)‖]

theorem columnNorm_smul (z : ℂ) (A : Matrix ι ι ℂ) : columnNorm (z • A) = ‖z‖ * columnNorm A := by
  rw [columnNorm, transpose_smul, norm_smul, columnNorm]

theorem columnNorm_neg (A : Matrix ι ι ℂ) : columnNorm (-A) = columnNorm A := by
  rw [← neg_one_smul ℂ A, columnNorm_smul, norm_neg, norm_one, one_mul]

end ColumnNorm

/-- Acting on one qubit only does not change the column norm. -/
theorem columnNorm_onQubit {n : ℕ} (q : Fin n) (A : LocalMatrix) :
    columnNorm (onQubit q A) = columnNorm A := by
  have hcolumn : ∀ c : Basis n, ∑ b, ‖onQubit q A b c‖ = ∑ x, ‖A x (c q)‖ := by
    intro c
    have hinjective : Function.Injective fun x => Function.update c q x :=
      Function.update_injective c q
    symm
    calc ∑ x, ‖A x (c q)‖ = ∑ x, ‖onQubit q A (Function.update c q x) c‖ := by
          refine Finset.sum_congr rfl fun x _ => ?_
          simp +contextual [onQubit]
      _ = ∑ b ∈ Finset.univ.image fun x => Function.update c q x, ‖onQubit q A b c‖ :=
          (Finset.sum_image (f := fun b => ‖onQubit q A b c‖) hinjective.injOn).symm
      _ = ∑ b, ‖onQubit q A b c‖ := by
          refine Finset.sum_subset (Finset.subset_univ _) fun b _ hb => ?_
          rw [onQubit, if_neg, norm_zero]
          intro hagree
          refine hb (Finset.mem_image.mpr ⟨b q, Finset.mem_univ _, ?_⟩)
          exact (Function.eq_update_iff.mpr ⟨rfl, hagree⟩).symm
  refine eq_of_forall_ge_iff fun c => ?_
  rw [columnNorm_le_iff, columnNorm_le_iff]
  simp only [hcolumn]
  refine and_congr_right fun _ => ⟨fun h x => ?_, fun h b => h (b q)⟩
  simpa using h fun _ => x

namespace Operator

variable {n : ℕ} {a : Operator ℝ}

theorem oneNorm_eq {A : Matrix (Fin n) (Fin n) ℂ} (ha : a.Represents A) :
    oneNorm a = columnNorm A := by
  obtain ⟨rfl, hcols, h⟩ := ha
  refine eq_of_forall_ge_iff fun c => ?_
  rw [oneNorm, Scalar.maximum_le_iff, columnNorm_le_iff, hcols, List.forall_mem_map]
  refine and_congr_right fun _ => ?_
  simp only [List.mem_range, Scalar.sumTo_real, Amplitude.norm_real, Finset.sum_range,
    Fin.forall_iff, ← h]

theorem oneNorm_eq_of_actsAs {A : Matrix (Basis n) (Basis n) ℂ} (ha : a.ActsAs A) :
    oneNorm a = columnNorm A := by
  rw [oneNorm_eq ha, columnNorm_submatrix]

end Operator
end QubitPulse
