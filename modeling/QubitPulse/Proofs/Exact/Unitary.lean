import Mathlib
import QubitPulse.Proofs.Exact.State

/-!
# Unitary evolution

Exact propagation under a Hermitian matrix is unitary, and what is unitary keeps the total of the
probabilities of a state: the squared length of a vector, the trace of a density matrix.
-/
namespace QubitPulse

open Matrix NormedSpace

theorem exp_smul_mem_unitaryGroup {ι : Type*} [Fintype ι] [DecidableEq ι] {H : Matrix ι ι ℂ}
    (h : H.IsHermitian) (t : ℝ) : exp ((-(Complex.I * t)) • H) ∈ unitaryGroup ι ℂ := by
  set A := (-(Complex.I * t)) • H
  have hskew : Aᴴ = -A := by
    rw [conjTranspose_smul, h.eq, ← neg_smul]
    simp
  rw [mem_unitaryGroup_iff', star_eq_conjTranspose, ← exp_conjTranspose, hskew, Matrix.exp_neg]
  exact nonsing_inv_mul _ ((isUnit_iff_isUnit_det _).mp (Matrix.isUnit_exp A))

namespace Operator

/-- Inverse to its conjugate transpose, on states of this dimension. -/
structure Unitary (dim : ℕ) (u : Operator ℝ) : Prop where
  rows : u.rows = dim
  cols : u.cols = dim
  dagger_mul : u.dagger.mul u = identity dim
  mul_dagger : u.mul u.dagger = identity dim

variable {m n : ℕ} {u : Operator ℝ}

theorem Represents.unitary {U : Matrix (Fin m) (Fin m) ℂ} (h : u.Represents U)
    (hU : U ∈ unitaryGroup (Fin m) ℂ) : u.Unitary m where
  rows := h.rows
  cols := h.cols
  dagger_mul := by
    have hproduct := h.dagger.mul h
    rw [← star_eq_conjTranspose, mem_unitaryGroup_iff'.mp hU] at hproduct
    exact hproduct.unique .identity
  mul_dagger := by
    have hproduct := h.mul h.dagger
    rw [← star_eq_conjTranspose, mem_unitaryGroup_iff.mp hU] at hproduct
    exact hproduct.unique .identity

theorem ActsAs.unitary {U : Matrix (Basis n) (Basis n) ℂ} (h : u.ActsAs U)
    (hU : U ∈ unitaryGroup (Basis n) ℂ) : u.Unitary (registerDim n) := by
  refine Represents.unitary h (mem_unitaryGroup_iff.mpr ?_)
  rw [star_eq_conjTranspose, conjTranspose_submatrix, submatrix_mul_equiv, ← star_eq_conjTranspose,
    mem_unitaryGroup_iff.mp hU, submatrix_one_equiv]

theorem toComplex_apply_eq_mulVec {U : Matrix (Fin m) (Fin m) ℂ} (h : u.Represents U)
    (v : Array (Amplitude ℝ)) :
    (fun i : Fin m => ((u.apply v).getD i .zero).toComplex) =
      U *ᵥ fun i => (v.getD i .zero).toComplex := by
  obtain ⟨rfl, hcols, h⟩ := h
  funext i
  rw [toComplex_apply i.isLt, hcols, Finset.sum_range]
  exact Finset.sum_congr rfl fun k _ => by rw [h]

end Operator

namespace State

/-- The squared length of a vector, the trace of a density matrix. -/
noncomputable def mass : State ℝ → ℂ
  | ket v => ∑ i : Fin v.size, (Complex.normSq (v.getD i .zero).toComplex : ℂ)
  | density a => ∑ i : Fin a.rows, (a.entry i i).toComplex

/-- The probabilities of a state sum to its mass. -/
theorem sum_probabilities {s : State ℝ} (hsquare : s.isSquare = true) :
    s.probabilities.sum = s.mass.re := by
  cases s with
  | ket v =>
    have hsum : (v.toList.map Amplitude.normSq).sum = ∑ i : Fin v.size, v[i].normSq := by
      rw [← Fin.sum_univ_fun_getElem]
      rfl
    rw [probabilities, hsum, mass, Complex.re_sum]
    refine Finset.sum_congr rfl fun i _ => ?_
    have hread : v.getD i .zero = v[i] := by simp [Array.getD]
    rw [hread, Complex.ofReal_re, Amplitude.normSq_real]
  | density a =>
    have hsize : min a.rows a.cols = a.rows := by
      have : a.rows = a.cols := of_decide_eq_true hsquare
      omega
    have hsum : ((List.range a.rows).map fun i => (a.entry i i).re).sum =
        ∑ i ∈ Finset.range a.rows, (a.entry i i).re := by
      rw [← List.sum_toFinset _ List.nodup_range, List.toFinset_range]
    rw [probabilities, hsize, hsum, Finset.sum_range, mass, Complex.re_sum]
    rfl

theorem mass_ket {v : Array (Amplitude ℝ)} {m : ℕ} (hsize : v.size = m) : (ket v).mass =
    star (fun i : Fin m => (v.getD i .zero).toComplex) ⬝ᵥ fun i => (v.getD i .zero).toComplex := by
  subst hsize
  exact Finset.sum_congr rfl fun i _ => Complex.normSq_eq_conj_mul_self

theorem mass_density {a : Operator ℝ} {m : ℕ} {M : Matrix (Fin m) (Fin m) ℂ} (h : a.Represents M) :
    (density a).mass = M.trace := by
  obtain ⟨rfl, -, h⟩ := h
  exact Finset.sum_congr rfl fun i _ => h i i

/-- What is unitary keeps the mass of a state. -/
theorem mass_under {dim : ℕ} {s : State ℝ} {u : Operator ℝ} (hu : u.Unitary dim)
    (hsquare : s.isSquare = true) (hdim : s.dim = dim) : (s.under u).mass = s.mass := by
  have hU : u.Represents (u.toMatrix dim dim) := Operator.represents_toMatrix hu.rows hu.cols
  set U := u.toMatrix dim dim
  have hinverse : Uᴴ * U = 1 := by
    have hproduct := hU.dagger.mul hU
    rw [hu.dagger_mul] at hproduct
    ext i j
    rw [← hproduct.entry, Operator.Represents.identity.entry]
  cases s with
  | ket v =>
    have hsize : (u.apply v).size = dim := by simp [Operator.apply, hu.rows]
    rw [under, mass_ket hsize, mass_ket hdim, Operator.toComplex_apply_eq_mulVec hU, star_mulVec,
      ← dotProduct_mulVec, mulVec_mulVec, hinverse, one_mulVec]
  | density a =>
    have ha : a.Represents (a.toMatrix dim dim) :=
      Operator.represents_toMatrix hdim ((of_decide_eq_true hsquare).symm.trans hdim)
    rw [under, mass_density ((hU.mul ha).mul hU.dagger), mass_density ha, trace_mul_cycle, hinverse,
      one_mul]

end State
end QubitPulse
