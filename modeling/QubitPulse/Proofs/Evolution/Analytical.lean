import Mathlib.Tactic.SplitIfs
import QubitPulse.Evolution.Analytical
import QubitPulse.Proofs.Result

/-!
# When an analytical evolution succeeds
-/
namespace QubitPulse

namespace State

variable {α : Type}

theorem checkDim_eq_ok {s : State α} {expected : Nat} :
    s.checkDim expected = .ok () ↔ s.isSquare = true ∧ s.dim = expected := by
  unfold checkDim
  cases s.isSquare <;> by_cases hdim : s.dim = expected <;> simp [hdim]

/-- A vector of a dimension or a square matrix of it. -/
def Fits (dim : Nat) : State α → Prop
  | ket v => v.size = dim
  | density m => m.rows = dim ∧ m.cols = dim

theorem checkDim_eq_ok_iff_fits {s : State α} {dim : Nat} : s.checkDim dim = .ok () ↔ s.Fits dim := by
  rw [checkDim_eq_ok]
  cases s with
  | ket v => exact and_iff_right rfl
  | density m =>
    have hsquare : (density m).isSquare = true ↔ m.rows = m.cols := decide_eq_true_iff
    rw [hsquare]
    exact ⟨fun ⟨hsquare, hrows⟩ => ⟨hrows, hsquare ▸ hrows⟩,
      fun ⟨hrows, hcols⟩ => ⟨hrows.trans hcols.symm, hrows⟩⟩

theorem Fits.dim_eq {s : State α} {dim : Nat} (h : s.Fits dim) : s.dim = dim :=
  (checkDim_eq_ok.mp (checkDim_eq_ok_iff_fits.mpr h)).2

theorem checkDim_of_not_fits {s : State α} {dim : Nat} (h : ¬s.Fits dim) :
    s.checkDim dim = .error (.dimensionMismatch dim s.dim) := by
  rw [← checkDim_eq_ok_iff_fits] at h
  unfold checkDim at h ⊢
  split_ifs at h ⊢
  · rfl
  · exact absurd rfl h

end State

variable {α : Type} [Scalar α]

/-- A square operator of its dimension takes a state to one of the same form and dimension. -/
theorem State.exists_evolve_of_fits {s : State α} {u : Operator α} (h : s.Fits u.rows)
    (hcols : u.cols = u.rows) :
    ∃ t, s.evolve u = .ok t ∧ t.isDensity = s.isDensity ∧ t.Fits s.dim := by
  have hdim := h.dim_eq
  unfold evolve
  rw [checkDim_eq_ok_iff_fits.mpr h, Result.ok_bind, if_neg (not_not.mpr (hcols.trans hdim.symm))]
  cases s with
  | ket v => exact ⟨_, rfl, rfl, (Array.size_ofFn).trans hdim.symm⟩
  | density m => exact ⟨_, rfl, rfl, hdim.symm, hdim.symm⟩

theorem State.exists_evolve {s : State α} {u : Operator α} (hs : s.isSquare = true)
    (hrows : u.rows = s.dim) (hcols : u.cols = s.dim) : ∃ final, s.evolve u = .ok final := by
  have hfits : s.Fits u.rows := checkDim_eq_ok_iff_fits.mp (checkDim_eq_ok.mpr ⟨hs, hrows.symm⟩)
  obtain ⟨final, hfinal, -⟩ := exists_evolve_of_fits hfits (hcols.trans hrows.symm)
  exact ⟨final, hfinal⟩

namespace AnalyticalEvolution

/-- The product of propagators with the tracked phase. -/
def totalOf (dim : Nat) (phase : α) (us : List (Operator α)) : Operator α :=
  (timeOrdered dim us).scale (Amplitude.ofPhase phase)

omit [Scalar α] in
theorem misfit?_eq_none {controls : List (ControlOperator α)} {dim : Nat} :
    misfit? controls dim = none ↔ ∀ c ∈ controls, c.dim = dim := by
  simp [misfit?]

/-- An evolution succeeds exactly if the timeline is one of steps with a row for every control, the
controls fit the state, there is room for an operator, and every segment and the state can be
evolved. -/
theorem computeWith_eq_ok {propagate : Propagation α} {controls : List (ControlOperator α)}
    {t : Timeline α} {initial : State α} {phase : α} {e : AnalyticalEvolution α} :
    computeWith propagate controls t initial phase = .ok e ↔
      t.interpolation = .step ∧ t.checkControls controls.length = .ok () ∧
      (∀ c ∈ controls, c.dim = initial.dim) ∧
      (Storage.reserve 2 [initial.dim, initial.dim] : Result α Unit) = .ok () ∧
      ∃ us final, propagatorsFrom propagate ⟨controls, t, [], initial⟩ 0 t.durations = .ok us ∧
        initial.evolve (totalOf initial.dim phase us) = .ok final ∧
        e = ⟨us, phase, totalOf initial.dim phase us, final⟩ := by
  unfold computeWith
  by_cases hstep : t.interpolation = .step
  · rw [if_neg (not_not.mpr hstep), Result.bind_eq_ok, ← misfit?_eq_none]
    constructor
    · rintro ⟨_, hrows, h⟩
      split at h
      · cases h
      · next hnone =>
        obtain ⟨_, hroom, h⟩ := Result.bind_eq_ok.mp h
        obtain ⟨us, hus, h⟩ := Result.bind_eq_ok.mp h
        obtain ⟨final, hfinal, h⟩ := Result.bind_eq_ok.mp h
        exact ⟨hstep, hrows, hnone, hroom, us, final, hus, hfinal, (Except.ok.inj h).symm⟩
    · rintro ⟨-, hrows, hnone, hroom, us, final, hus, hfinal, rfl⟩
      refine ⟨(), hrows, ?_⟩
      rw [hnone]
      exact Result.bind_eq_ok.mpr ⟨(), hroom, Result.bind_eq_ok.mpr
        ⟨us, hus, Result.bind_eq_ok.mpr ⟨final, hfinal, rfl⟩⟩⟩
  · rw [if_pos hstep]
    simp [hstep]

end AnalyticalEvolution
end QubitPulse
