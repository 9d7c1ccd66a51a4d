import Mathlib
import QubitPulse.Proofs.Exact.Truncation

/-!
# Propagation on one qubit of a register

Placing a matrix on a qubit of a register is a homomorphism of algebras that keeps the column norm. The
exponential is computed from sums, products and that norm, so it does not matter whether a Hamiltonian of
one qubit is placed on a register before it is exponentiated or its propagator after.
-/
namespace QubitPulse

open Matrix

variable {n : ℕ}

theorem onQubit_add (q : Fin n) (A B : LocalMatrix) :
    onQubit q (A + B) = onQubit q A + onQubit q B := by
  ext b c
  simp only [onQubit, Matrix.add_apply]
  split_ifs <;> simp

/-- Matrices of one qubit, placed on a register. -/
noncomputable def placeOn (q : Fin n) : LocalMatrix →ₐ[ℂ] Matrix (Basis n) (Basis n) ℂ :=
  AlgHom.ofLinearMap
    { toFun := onQubit q
      map_add' := onQubit_add q
      map_smul' := onQubit_smul q }
    (onQubit_one q) fun A B => (onQubit_mul q A B).symm

theorem placeOn_apply (q : Fin n) (A : LocalMatrix) : placeOn q A = onQubit q A := rfl

namespace Operator

/-- The matrix that is exponentiated to propagate for a time. -/
def generator {α : Type} [Scalar α] (hamiltonian : Operator α) (dt : α) : Operator α :=
  hamiltonian.scale ⟨Scalar.zero, -dt⟩

variable {a e : Operator ℝ} {A : LocalMatrix} {q : Fin n}

theorem seriesTerm_actsAs {M : Matrix (Basis n) (Basis n) ℂ} (he : e.ActsAs M) (k : ℕ) :
    (seriesTerm e k).ActsAs ((k.factorial : ℂ)⁻¹ • M ^ k) := by
  rw [actsAs_iff_renumber, map_smul, map_pow]
  exact seriesTerm_represents (actsAs_iff_renumber.mp he) k

/-- On a register the terms of the series have the norms that they have on the qubit. -/
theorem oneNorm_seriesTerm_onQubit (ha : a.Represents A) (he : e.ActsAs (onQubit q A)) (k : ℕ) :
    oneNorm (seriesTerm e k) = oneNorm (seriesTerm a k) := by
  rw [oneNorm_eq_of_actsAs (seriesTerm_actsAs he k), oneNorm_eq (seriesTerm_represents ha k),
    ← placeOn_apply, ← map_pow, ← map_smul, placeOn_apply, columnNorm_onQubit]

/-- On a register the series stops where it stops on the qubit. -/
theorem StopsAt.onQubit {order : ℕ} (h : StopsAt a order) (ha : a.Represents A)
    (he : e.ActsAs (onQubit q A)) : StopsAt e order :=
  h.congr (oneNorm_seriesTerm_onQubit ha he)

theorem halved_onQubit (ha : a.Represents A) (he : e.ActsAs (onQubit q A)) :
    halvings (oneNorm e) = halvings (oneNorm a) ∧
      (halved e).ActsAs (onQubit q (((2 : ℂ) ^ halvings (oneNorm a))⁻¹ • A)) := by
  have hnorm : oneNorm e = oneNorm a := by
    rw [oneNorm_eq_of_actsAs he, oneNorm_eq ha, columnNorm_onQubit]
  refine ⟨congrArg halvings hnorm, ?_⟩
  rw [onQubit_smul, actsAs_iff_renumber, map_smul, ← hnorm]
  exact halved_represents (actsAs_iff_renumber.mp he)

/-- The exponential of a matrix that is placed on a qubit is the exponential of the matrix, placed there. -/
theorem exp_onQubit (ha : a.Represents A) (he : e.ActsAs (onQubit q A)) {order : ℕ}
    (hstop : StopsAt (halved a) order) (horder : order ≤ mostTerms) :
    ∃ u w U, exp a = .ok u ∧ u.Represents U ∧ exp e = .ok w ∧ w.ActsAs (onQubit q U) := by
  obtain ⟨hhalvings, hscaled⟩ := halved_onQubit ha he
  have hstop' := hstop.onQubit (halved_represents ha) hscaled
  obtain ⟨u, hu, hrepresents⟩ := exp_of_stopsAt ha hstop horder
  obtain ⟨w, hw, hacts⟩ := exp_of_stopsAt (actsAs_iff_renumber.mp he) hstop' horder
  refine ⟨u, w, _, hu, hrepresents, hw, actsAs_iff_renumber.mpr ?_⟩
  rwa [hhalvings, ← placeOn_apply, ← map_smul, ← map_smul, ← map_taylor, ← map_taylor, ← map_pow,
    ← map_pow] at hacts

/-- A Hamiltonian of one qubit can be placed on a register before or after it is propagated: the result is the
same operator, from as many halvings and as many terms of the series. -/
theorem propagator_embed {h : Operator ℝ} (hrows : h.rows = 2) (hcols : h.cols = 2) {q n : ℕ}
    (hq : q < n) (dt : ℝ) :
    ∃ e u w, embed h q n = .ok e ∧ propagator e dt = .ok w ∧
      propagator h dt = .ok u ∧ embed u q n = .ok w ∧
      halvings (oneNorm (generator e dt)) = halvings (oneNorm (generator h dt)) ∧
      ∃ order ≤ mostTerms, StopsAt (halved (generator h dt)) order ∧
        StopsAt (halved (generator e dt)) order := by
  have hh : h.Represents (h.toMatrix 2 2) := represents_toMatrix hrows hcols
  obtain ⟨e, he, hplaced⟩ := actsAs_embed ⟨q, hq⟩ hh
  have hgenerator : (generator h dt).Represents _ := hh.scale ⟨Scalar.zero, -dt⟩
  have hgenerator' : (generator e dt).ActsAs _ := hplaced.scale ⟨Scalar.zero, -dt⟩
  rw [← onQubit_smul] at hgenerator'
  obtain ⟨order, horder, hstop⟩ := exists_stopsAt_halved hgenerator
  replace horder : order ≤ mostTerms := horder.trans (by decide)
  obtain ⟨u, w, U, hu, hU, hw, hacts⟩ := exp_onQubit hgenerator hgenerator' hstop horder
  obtain ⟨w', hw', hacts'⟩ := actsAs_embed ⟨q, hq⟩ hU
  obtain rfl : w = w' := Represents.unique hacts hacts'
  obtain ⟨hhalvings, hscaled⟩ := halved_onQubit hgenerator hgenerator'
  exact ⟨e, u, w, he, hw, hu, hw', hhalvings, order, horder, hstop,
    hstop.onQubit (halved_represents hgenerator) hscaled⟩

/-- The middle one of three qubits, driven about the x axis for five units of time. -/
theorem propagator_embed_on_middle_of_three :
    let h : Operator ℝ := sigmaX
    h.rows = 2 ∧ h.cols = 2 ∧ 1 < 3 ∧ ∃ e u w, embed h 1 3 = .ok e ∧ propagator e 5 = .ok w ∧
      propagator h 5 = .ok u ∧ embed u 1 3 = .ok w := by
  intro h
  obtain ⟨e, u, w, he, hw, hu, hw', -⟩ :=
    propagator_embed (h := h) rfl rfl (show 1 < 3 by decide) 5
  exact ⟨rfl, rfl, by decide, e, u, w, he, hw, hu, hw'⟩

end Operator
end QubitPulse
