import Mathlib.Data.Matrix.Mul
import QubitPulse.Operator.Basic
import QubitPulse.Proofs.Exact.Scalar

/-!
# Operators as matrices

Over exact arithmetic the operations on stored operators are those on complex matrices.
-/
namespace QubitPulse.Operator

open Matrix

/-- The operator stores this matrix. -/
structure Represents {m n : ℕ} (a : Operator ℝ) (M : Matrix (Fin m) (Fin n) ℂ) : Prop where
  rows : a.rows = m
  cols : a.cols = n
  entry : ∀ (i : Fin m) (j : Fin n), (a.entry i j).toComplex = M i j

section Entries

variable {α : Type} [Scalar α]

theorem entry_ofFn {m n i j : ℕ} (f : ℕ → ℕ → Amplitude α) (hi : i < m) (hj : j < n) :
    entry (Grid.ofFn m n f) i j = f i j :=
  Grid.getD_ofFn f _ hi hj

theorem entry_map {a : Operator α} {i j : ℕ} (f : Amplitude α → Amplitude α) (hi : i < a.rows)
    (hj : j < a.cols) : entry (a.map f) i j = f (a.entry i j) := by
  have hk : i * a.cols + j < a.entries.size := by
    rw [a.size_eq]
    exact Grid.index_lt hi hj
  simp [entry, Grid.getD, Grid.map, hj, Array.getD, hk]

end Entries

variable {l m n : ℕ}

theorem represents_ofFn {f : ℕ → ℕ → Amplitude ℝ} {M : Matrix (Fin m) (Fin n) ℂ}
    (h : ∀ i j : ℕ, ∀ hi hj, (f i j).toComplex = M ⟨i, hi⟩ ⟨j, hj⟩) :
    Represents (Grid.ofFn m n f) M :=
  ⟨rfl, rfl, fun i j => by rw [entry_ofFn f i.isLt j.isLt, h i j i.isLt j.isLt]⟩

namespace Represents

variable {a b : Operator ℝ}

theorem isSquare {M : Matrix (Fin n) (Fin n) ℂ} (h : a.Represents M) : a.isSquare = true := by
  simp [Operator.isSquare, h.rows, h.cols]

theorem zero : (Operator.zero m n).Represents (0 : Matrix (Fin m) (Fin n) ℂ) :=
  represents_ofFn fun _ _ _ _ => rfl

theorem identity : (Operator.identity n).Represents (1 : Matrix (Fin n) (Fin n) ℂ) := by
  apply represents_ofFn
  intro i j hi hj
  rw [Matrix.one_apply, apply_ite Amplitude.toComplex]
  simp

theorem add {M N : Matrix (Fin m) (Fin n) ℂ} (ha : a.Represents M) (hb : b.Represents N) :
    (a.add b).Represents (M + N) := by
  obtain ⟨rfl, rfl, ha⟩ := ha
  apply represents_ofFn
  intro i j hi hj
  rw [Amplitude.toComplex_add, Matrix.add_apply, ← ha, ← hb.entry]

theorem scale {M : Matrix (Fin m) (Fin n) ℂ} (ha : a.Represents M) (z : Amplitude ℝ) :
    (a.scale z).Represents (z.toComplex • M) := by
  obtain ⟨rfl, rfl, ha⟩ := ha
  refine ⟨rfl, rfl, fun i j => ?_⟩
  rw [Operator.scale, entry_map _ i.isLt j.isLt, Amplitude.toComplex_mul, Matrix.smul_apply, ← ha,
    smul_eq_mul, mul_comm]

end Represents

section Products

/-- The terms of a row are added to what there is already. -/
theorem toComplex_addTerms (b : Operator ℝ) (j : ℕ) (terms : List (ℕ × Amplitude ℝ)) (re im : ℝ) :
    (addTerms b j terms re im).toComplex =
      (Amplitude.mk re im).toComplex +
        (terms.map fun t => t.2.toComplex * (b.entry t.1 j).toComplex).sum := by
  induction terms generalizing re im with
  | nil => rw [addTerms, Amplitude.toComplex_settled, List.map_nil, List.sum_nil, add_zero]
  | cons t terms ih =>
    rw [addTerms, ih, List.map_cons, List.sum_cons, ← add_assoc]
    congr 1
    refine Complex.ext ?_ ?_
    · simp [Amplitude.toComplex, Scalar.mulAdd]
      ring
    · simp [Amplitude.toComplex, Scalar.mulAdd]
      ring

/-- Zeros that are left out of a row would add nothing. -/
theorem sum_rowTerms (a b : Operator ℝ) (keepZeros : Bool) (i j : ℕ) :
    ((a.rowTerms keepZeros i).map fun t => t.2.toComplex * (b.entry t.1 j).toComplex).sum =
      ∑ k ∈ Finset.range a.cols, (a.entry i k).toComplex * (b.entry k j).toComplex := by
  have hlist : ∀ ks : List ℕ, ((ks.filterMap fun k =>
      if keepZeros || !(a.entry i k).isZero then some (k, a.entry i k) else none).map fun t =>
        t.2.toComplex * (b.entry t.1 j).toComplex).sum =
      (ks.map fun k => (a.entry i k).toComplex * (b.entry k j).toComplex).sum := by
    intro ks
    induction ks with
    | nil => rfl
    | cons k ks ih =>
      rw [List.map_cons, List.sum_cons, ← ih, List.filterMap_cons]
      split_ifs with h
      · rw [List.map_cons, List.sum_cons]
      · have hzero : (a.entry i k).toComplex = 0 := by
          simp only [Bool.or_eq_true, Bool.not_eq_true', not_or, Bool.not_eq_false] at h
          exact Amplitude.isZero_eq_true.mp h.2
        rw [hzero, zero_mul, zero_add]
  exact hlist (List.range a.cols)

theorem Represents.mul {a b : Operator ℝ} {M : Matrix (Fin l) (Fin m) ℂ}
    {N : Matrix (Fin m) (Fin n) ℂ} (ha : a.Represents M) (hb : b.Represents N) :
    (a.mul b).Represents (M * N) := by
  obtain ⟨rfl, rfl, ha⟩ := ha
  obtain ⟨-, rfl, hb⟩ := hb
  unfold Operator.mul
  apply represents_ofFn
  intro i j hi hj
  have hrow : (Array.ofFn (n := a.rows) fun i => a.rowTerms (!b.isFinite) i).getD i [] =
      a.rowTerms (!b.isFinite) i := by
    simp [Array.getD, hi]
  rw [hrow, toComplex_addTerms, sum_rowTerms, Finset.sum_range, Matrix.mul_apply]
  simp only [← ha, ← hb]
  exact zero_add _

end Products
end QubitPulse.Operator
