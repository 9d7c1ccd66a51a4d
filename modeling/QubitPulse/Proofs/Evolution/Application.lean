import QubitPulse.Proofs.Evolution.Analytical
import QubitPulse.Scalar.Double

/-!
# Operators of any shape on states of any shape

A state is evolved by an operator with as many rows as the state has dimensions. The products that are formed
then take the columns of the operator as well, so they need a square one. An operator whose columns alone do
not match is not refused for its dimension: it reaches a product of disagreeing shapes.
-/
namespace QubitPulse

variable {α : Type} [Scalar α]

namespace Operator

/-- The product of two operators, which fails if the columns of the first are not as many as the rows of the
second. -/
def mulChecked (a b : Operator α) : Result α (Operator α) :=
  if a.cols = b.rows then .ok (a.mul b) else .error .incompatibleProduct

/-- The product with a vector, which fails if the columns are not as many as the entries of the vector. -/
def applyChecked (a : Operator α) (v : Array (Amplitude α)) : Result α (Array (Amplitude α)) :=
  if a.cols = v.size then .ok (a.apply v) else .error .incompatibleProduct

theorem mulChecked_eq_ok {a b : Operator α} (h : a.cols = b.rows) : a.mulChecked b = .ok (a.mul b) :=
  if_pos h

theorem mulChecked_eq_error {a b : Operator α} (h : a.cols ≠ b.rows) :
    a.mulChecked b = .error .incompatibleProduct :=
  if_neg h

end Operator

namespace State

variable {s : State α} {u : Operator α}

/-- The evolution of a state with a check at each of its products. -/
def evolveChecked (s : State α) (u : Operator α) : Result α (State α) := do
  s.checkDim u.rows
  match s with
  | ket v =>
    let w ← u.applyChecked v
    return .ket w
  | density m =>
    let half ← u.mulChecked m
    let full ← half.mulChecked u.dagger
    return .density full

theorem evolve_of_not_fits (h : ¬s.Fits u.rows) :
    s.evolve u = .error (.dimensionMismatch u.rows s.dim) := by
  unfold evolve
  rw [checkDim_of_not_fits h]
  rfl

theorem evolve_of_cols_ne (h : s.Fits u.rows) (hcols : u.cols ≠ u.rows) :
    s.evolve u = .error .incompatibleProduct := by
  unfold evolve
  rw [checkDim_eq_ok_iff_fits.mpr h, Result.ok_bind, if_pos (h.dim_eq.symm ▸ hcols)]

/-- The one check of columns stands for those of all products. -/
theorem evolveChecked_eq (s : State α) (u : Operator α) : s.evolveChecked u = s.evolve u := by
  by_cases h : s.Fits u.rows
  · unfold evolveChecked evolve
    rw [checkDim_eq_ok_iff_fits.mpr h, Result.ok_bind, Result.ok_bind]
    cases s with
    | ket v =>
      change u.applyChecked v >>= _ = if u.cols ≠ v.size then _ else _
      unfold Operator.applyChecked
      by_cases hcols : u.cols = v.size
      · rw [if_pos hcols, if_neg (not_not.mpr hcols)]
        rfl
      · rw [if_neg hcols, if_pos hcols]
        rfl
    | density m =>
      change u.mulChecked m >>= _ = if u.cols ≠ m.rows then _ else _
      split_ifs with hcols
      · rw [Operator.mulChecked_eq_error hcols]
        rfl
      · have hagain : (u.mul m).cols = u.dagger.rows := h.2.trans (h.1.symm.trans (not_not.mp hcols).symm)
        rw [Operator.mulChecked_eq_ok (not_not.mp hcols), Result.ok_bind,
          Operator.mulChecked_eq_ok hagain]
        rfl
  · unfold evolveChecked
    rw [evolve_of_not_fits h, checkDim_of_not_fits h]
    rfl

/-- The state takes the operator: the result is a state of the same form and dimension, or the operator is
refused for its dimension. -/
def Takes (s : State α) (u : Operator α) : Prop :=
  (∃ t, s.evolve u = .ok t ∧ t.isDensity = s.isDensity ∧ t.Fits s.dim) ∨
    ∃ expected actual, s.evolve u = .error (.dimensionMismatch expected actual)

theorem not_takes_of_cols_ne (h : s.Fits u.rows) (hcols : u.cols ≠ u.rows) : ¬s.Takes u := by
  rintro (⟨t, ht, -⟩ | ⟨expected, actual, he⟩)
  · simp [evolve_of_cols_ne h hcols] at ht
  · simp [evolve_of_cols_ne h hcols] at he

/-- A state takes every operator but those with as many rows as it has dimensions and another number of
columns. Those reach a product of disagreeing shapes, and no others do. -/
theorem takes_iff (s : State α) (u : Operator α) :
    s.evolve u = s.evolveChecked u ∧
      (s.Takes u ↔ ¬(s.Fits u.rows ∧ u.cols ≠ u.rows)) ∧
      (s.evolve u = .error .incompatibleProduct ↔ s.Fits u.rows ∧ u.cols ≠ u.rows) := by
  refine ⟨(s.evolveChecked_eq u).symm, ?_⟩
  by_cases h : s.Fits u.rows
  · by_cases hcols : u.cols = u.rows
    · obtain ⟨t, ht, hform, hfits⟩ := exists_evolve_of_fits h hcols
      have htakes : s.Takes u := .inl ⟨t, ht, hform, hfits⟩
      simp [htakes, hcols, ht]
    · have hfails := evolve_of_cols_ne h hcols
      simp [not_takes_of_cols_ne h hcols, h, hcols, hfails]
  · have hrefused := evolve_of_not_fits h
    have htakes : s.Takes u := .inr ⟨_, _, hrefused⟩
    simp [htakes, h, hrefused]

/-- An operator of two rows and three columns on a vector of two entries, and on a density matrix of the same
dimension. -/
theorem wide_operator_reaches_product :
    let u : Operator Float := ⟨2, 3, #[.one, .zero, .zero, .zero, .one, .zero], rfl⟩
    let v : State Float := .ket #[.one, .zero]
    let m : State Float := .density (.two .one .zero .zero .zero)
    u.isSquare = false ∧ v.dim = u.rows ∧ m.dim = u.rows ∧
      ∀ s ∈ [v, m], s.evolve u = .error .incompatibleProduct ∧ ¬s.Takes u := by
  intro u v m
  refine ⟨rfl, rfl, rfl, fun s hs => ?_⟩
  have hfits : s.Fits u.rows := by
    rcases List.mem_pair.mp hs with rfl | rfl
    · exact rfl
    · exact ⟨rfl, rfl⟩
  have hcols : u.cols ≠ u.rows := by decide
  exact ⟨evolve_of_cols_ne hfits hcols, not_takes_of_cols_ne hfits hcols⟩

end State
end QubitPulse
