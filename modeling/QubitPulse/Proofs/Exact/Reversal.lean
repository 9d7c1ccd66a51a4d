import Mathlib
import QubitPulse.Proofs.Evolution.Totality
import QubitPulse.Proofs.SpinChain.Hermitian

/-!
# Evolution backwards in time

The adjoint of a generator is its negative. Both have the same norm, so they are halved as often, and their
series stop at the same term; conjugate transposition passes through sums, powers and products. So to propagate
backwards is to take the adjoint, for a single segment and for a whole timeline.
-/
namespace QubitPulse

open Matrix

theorem conjTranspose_taylor {ι : Type*} [Fintype ι] [DecidableEq ι] (order : ℕ) (A : Matrix ι ι ℂ) :
    (taylor order A)ᴴ = taylor order Aᴴ := by
  simp [taylor, conjTranspose_sum, conjTranspose_smul, conjTranspose_pow]

namespace Operator

variable {n : ℕ} {a b h : Operator ℝ} {A : Matrix (Fin n) (Fin n) ℂ}

/-- The terms of the series for a matrix and for its negative have the same norms. -/
theorem oneNorm_seriesTerm_neg (ha : a.Represents A) (hb : b.Represents (-A)) (k : ℕ) :
    oneNorm (seriesTerm b k) = oneNorm (seriesTerm a k) := by
  rw [oneNorm_eq (seriesTerm_represents hb k), oneNorm_eq (seriesTerm_represents ha k)]
  rcases k.even_or_odd with heven | hodd
  · rw [heven.neg_pow]
  · rw [hodd.neg_pow, smul_neg, columnNorm_neg]

/-- The exponential of the adjoint of a skew-Hermitian matrix is the adjoint of its exponential. -/
theorem exp_conjTranspose (ha : a.Represents A) (hb : b.Represents Aᴴ) (hskew : Aᴴ = -A) :
    ∃ u, exp a = .ok u ∧ exp b = .ok u.dagger := by
  have hnorm : oneNorm b = oneNorm a := by
    rw [oneNorm_eq hb, oneNorm_eq ha, hskew, columnNorm_neg]
  set s := halvings (oneNorm a) with hs
  set B := ((2 : ℂ) ^ s)⁻¹ • A with hB
  have hhalved : (halved a).Represents B := halved_represents ha
  have hadjoint : (((2 : ℂ) ^ s)⁻¹ • Aᴴ) = Bᴴ := by
    rw [hB, conjTranspose_smul]
    simp
  have hhalved' : (halved b).Represents Bᴴ := by
    rw [← hadjoint, hs, ← hnorm]
    exact halved_represents hb
  have hskewed : Bᴴ = -B := by
    rw [← hadjoint, hskew, smul_neg]
  -- The terms for the negative have the same norms, so both loops stop at one order.
  obtain ⟨order, horder, hstop⟩ := exists_stopsAt_halved ha
  replace horder : order ≤ mostTerms := horder.trans (by decide)
  have hstop' : StopsAt (halved b) order :=
    hstop.congr (oneNorm_seriesTerm_neg hhalved (hskewed ▸ hhalved'))
  obtain ⟨u, hu, hpower⟩ := exp_of_stopsAt ha hstop horder
  obtain ⟨w, hw, hpower'⟩ := exp_of_stopsAt hb hstop' horder
  rw [hnorm, hadjoint, ← conjTranspose_taylor, ← conjTranspose_pow] at hpower'
  exact ⟨u, hu, hw.trans (congrArg _ (hpower'.unique hpower.dagger))⟩

/-- The operator stores a Hermitian matrix of this dimension. -/
def StoresHermitian (dim : ℕ) (a : Operator ℝ) : Prop :=
  ∃ A : Matrix (Fin dim) (Fin dim) ℂ, a.Represents A ∧ A.IsHermitian

theorem Hermitian.stores (ha : a.Hermitian) : a.StoresHermitian a.rows := by
  refine ⟨a.toMatrix a.rows a.rows, represents_toMatrix rfl ha.square.symm, ?_⟩
  ext i j
  have hi : i.val < a.cols := i.isLt.trans_eq ha.square
  exact Complex.ext (of_decide_eq_true (ha.re j j.isLt i hi)).symm
    (of_decide_eq_true (ha.im j j.isLt i hi)).symm

/-- To propagate for a negative time is to take the adjoint. -/
theorem StoresHermitian.propagator_neg (hh : h.StoresHermitian n) (dt : ℝ) :
    ∃ u, propagator h dt = .ok u ∧ propagator h (-dt) = .ok u.dagger := by
  obtain ⟨H, hH, hHermitian⟩ := hh
  have hconj : (starRingEnd ℂ) (Amplitude.mk (0 : ℝ) (-dt)).toComplex =
      (Amplitude.mk (0 : ℝ) (- -dt)).toComplex :=
    Complex.ext rfl rfl
  have hneg : (Amplitude.mk (0 : ℝ) (- -dt)).toComplex = -(Amplitude.mk (0 : ℝ) (-dt)).toComplex :=
    Complex.ext neg_zero.symm rfl
  have hadjoint : ((Amplitude.mk (0 : ℝ) (-dt)).toComplex • H)ᴴ =
      (Amplitude.mk (0 : ℝ) (- -dt)).toComplex • H := by
    rw [conjTranspose_smul, hHermitian.eq, ← hconj]
    rfl
  have hbackwards := hH.scale ⟨0, - -dt⟩
  rw [← hadjoint] at hbackwards
  refine exp_conjTranspose (hH.scale ⟨0, -dt⟩) hbackwards ?_
  rw [hadjoint, hneg, neg_smul]

end Operator

namespace EvolutionProblem

theorem storesHermitian_addTerm {dim : ℕ} {h : Operator ℝ} {term : ControlOperator ℝ × ℝ}
    (hh : h.StoresHermitian dim) (hterm : term.1.matrix.StoresHermitian dim) :
    (addTerm h term).StoresHermitian dim := by
  obtain ⟨A, hA, hAHermitian⟩ := hh
  obtain ⟨H, hH, hHHermitian⟩ := hterm
  exact ⟨A + (term.2 : ℂ) • H, addTerm_represents hA hH term.2,
    hAHermitian.add (isHermitian_real_smul hHHermitian term.2)⟩

end EvolutionProblem

namespace AnalyticalEvolution

/-- Hermitian controls have Hermitian sums. -/
theorem storesHermitian_hamiltonian {p : EvolutionProblem ℝ}
    (h : ∀ c ∈ p.controls, c.matrix.StoresHermitian p.initialState.dim) (k : ℕ) :
    (hamiltonian p k).StoresHermitian p.initialState.dim := by
  have hzero : (Operator.zero p.initialState.dim p.initialState.dim).StoresHermitian
      p.initialState.dim := ⟨0, .zero, isHermitian_zero⟩
  unfold hamiltonian EvolutionProblem.segmentHamiltonian?
  cases p.timeline.segmentCoeffs k with
  | none => exact hzero
  | some column =>
    exact List.foldlRecOn (motive := Operator.StoresHermitian p.initialState.dim) _ _ hzero
      fun a ha term hterm =>
        EvolutionProblem.storesHermitian_addTerm ha (h term.1 (List.of_mem_zip hterm).1)

/-- The propagators of all segments for their durations with the opposite sign. -/
noncomputable def backwards (p : EvolutionProblem ℝ) : Result ℝ (List (Operator ℝ)) :=
  propagatorsFrom Operator.propagator p 0 (p.timeline.durations.map (-·))

theorem backwards_eq {p : EvolutionProblem ℝ} {us : List (Operator ℝ)}
    (h : ∀ c ∈ p.controls, c.matrix.StoresHermitian p.initialState.dim)
    (hus : propagatorsFrom Operator.propagator p 0 p.timeline.durations = .ok us) :
    backwards p = .ok (us.map Operator.dagger) := by
  rw [propagatorsFrom_eq_mapM] at hus
  rw [backwards, propagatorsFrom_eq_mapM, List.zipIdx_map, List.mapM_map]
  refine Result.mapM_eq_ok.mpr (List.forall₂_map_right_iff.mpr ?_)
  refine (Result.mapM_eq_ok.mp hus).imp fun segment u hu => ?_
  obtain ⟨u', hu', hbackwards⟩ :=
    (storesHermitian_hamiltonian h segment.2).propagator_neg segment.1
  obtain rfl : u = u' := Except.ok.inj (hu.symm.trans hu')
  exact hbackwards

/-- The adjoints of propagators, in the opposite order, have the adjoint of their product. -/
theorem timeOrdered_dagger {dim : ℕ} {us : List (Operator ℝ)} (h : ∀ u ∈ us, u.OfDim dim) :
    timeOrdered dim (us.map Operator.dagger).reverse = (timeOrdered dim us).dagger := by
  have hus : ∀ u ∈ us, u.Represents (u.toMatrix dim dim) := fun u hu =>
    Operator.represents_toMatrix (h u hu).rows (h u hu).cols
  have hforwards : (timeOrdered dim us).Represents (us.map fun u => u.toMatrix dim dim).reverse.prod :=
    timeOrdered_represents (List.forall₂_map_right_iff.mpr (List.forall₂_same.mpr hus))
  have hbackwards : (timeOrdered dim (us.reverse.map Operator.dagger)).Represents
      (us.reverse.map fun u => (u.toMatrix dim dim)ᴴ).reverse.prod := by
    refine timeOrdered_represents (List.forall₂_map_right_iff.mpr (List.forall₂_map_left_iff.mpr ?_))
    exact List.forall₂_same.mpr fun u hu => (hus u (List.mem_reverse.mp hu)).dagger
  have hproduct : (us.map fun u => u.toMatrix dim dim).reverse.prodᴴ =
      (us.reverse.map fun u => (u.toMatrix dim dim)ᴴ).reverse.prod := by
    rw [conjTranspose_list_prod, List.map_reverse, List.map_map, List.map_reverse]
    rfl
  rw [← List.map_reverse]
  exact hbackwards.unique (hproduct ▸ hforwards.dagger)

theorem totalOf_zero (dim : ℕ) (us : List (Operator ℝ)) : totalOf dim 0 us = timeOrdered dim us := by
  have hproduct := Operator.represents_toMatrix (a := timeOrdered dim us) rfl rfl
  have hone : (Amplitude.ofPhase (0 : ℝ)).toComplex = 1 := by
    simp [Amplitude.toComplex_ofPhase]
  have htotal := hproduct.scale (Amplitude.ofPhase 0)
  rw [hone, one_smul] at htotal
  exact htotal.unique hproduct

/-- To run backwards is to take the adjoint. A Hermitian matrix of any dimension is propagated for a negative
time by the adjoint of its propagator, and the propagators of a whole timeline for the opposite durations,
from the last segment to the first, have the adjoint of its total as their product. -/
theorem propagation_backwards_eq_dagger :
    (∀ {h : Operator ℝ}, h.Hermitian → ∀ dt, ∃ u, Operator.propagator h dt = .ok u ∧
      Operator.propagator h (-dt) = .ok u.dagger) ∧
    ∀ {controls : List (ControlOperator ℝ)} {t : Timeline ℝ} {initial : State ℝ}
      {e : AnalyticalEvolution ℝ}, (∀ c ∈ controls, c.matrix.Hermitian) →
      compute controls t initial 0 = .ok e →
      ∃ vs, backwards ⟨controls, t, [], initial⟩ = .ok vs ∧ vs = e.propagators.map Operator.dagger ∧
        timeOrdered initial.dim vs.reverse = e.total.dagger := by
  refine ⟨fun hh dt => hh.stores.propagator_neg dt, fun {controls t initial e} hcontrols he => ?_⟩
  obtain ⟨-, -, hdim, -, us, final, hus, -, rfl⟩ := computeWith_eq_ok.mp he
  have hstores : ∀ c ∈ controls, c.matrix.StoresHermitian initial.dim := fun c hc =>
    hdim c hc ▸ (hcontrols c hc).stores
  have hfits : ∀ u ∈ us, u.OfDim initial.dim := by
    obtain ⟨us', hus', hfits⟩ := exists_propagators (p := ⟨controls, t, [], initial⟩)
      (List.all_eq_true.mpr fun g _ => g.isFinite_real)
    rw [propagatorsFrom_propagator, hus'] at hus
    exact Except.ok.inj hus ▸ hfits
  refine ⟨_, backwards_eq (p := ⟨controls, t, [], initial⟩) hstores hus, rfl, ?_⟩
  dsimp only
  rw [totalOf_zero, timeOrdered_dagger hfits]

/-- A qubit with two controls that do not commute, and a timeline of two segments. -/
theorem propagation_backwards_eq_dagger_on_two_segments :
    let controls : List (ControlOperator ℝ) := [⟨"x", .sigmaX⟩, ⟨"z", .sigmaZ⟩]
    let t : Timeline ℝ := ⟨[0, 1, 3], ⟨2, 2, #[1, 2, 3, 4], rfl⟩, .step⟩
    let initial : State ℝ := .ket #[.one, .zero]
    (∀ c ∈ controls, c.matrix.Hermitian) ∧
      (∃ u, Operator.propagator .sigmaX (5 : ℝ) = .ok u ∧ Operator.propagator .sigmaX (-5) = .ok u.dagger) ∧
      ∃ e, compute controls t initial 0 = .ok e ∧ ∃ vs, backwards ⟨controls, t, [], initial⟩ = .ok vs ∧
        vs.length = 2 ∧ timeOrdered 2 vs.reverse = e.total.dagger := by
  intro controls t initial
  have hx : (Operator.sigmaX : Operator ℝ).Hermitian :=
    SpinChain.represents_sigmaX.hermitian isHermitian_pauliX
  have hz : (Operator.sigmaZ : Operator ℝ).Hermitian :=
    SpinChain.represents_sigmaZ.hermitian isHermitian_pauliZ
  have hcontrols : ∀ c ∈ controls, c.matrix.Hermitian := by
    intro c hc
    rcases List.mem_pair.mp hc with rfl | rfl
    · exact hx
    · exact hz
  have hdim : ∀ c ∈ controls, c.dim = initial.dim := by
    intro c hc
    rcases List.mem_pair.mp hc with rfl | rfl <;> rfl
  obtain ⟨-, e, he⟩ := exists_compute (t := t) rfl rfl hdim (by decide) rfl 0
  obtain ⟨hsegment, htimeline⟩ := propagation_backwards_eq_dagger
  obtain ⟨vs, hvs, hdaggers, htotal⟩ := htimeline hcontrols he
  refine ⟨hcontrols, hsegment hx 5, e, he, vs, hvs, ?_, htotal⟩
  rw [hdaggers, List.length_map]
  exact (evolves_of_compute he).count

end AnalyticalEvolution
end QubitPulse
