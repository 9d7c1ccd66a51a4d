import QubitPulse.Evolution.Problem
import QubitPulse.Proofs.SpinChain.Segments

/-!
# Hamiltonians of segments

A timeline in steps has a column of coefficients for every segment. The Hamiltonian of a segment adds the
controls with the coefficients of its column, but passes over those that are zero; entry by entry it is
to be compared with the sum that passes over none.
-/
namespace QubitPulse

namespace Timeline

variable {α : Type} [Scalar α]

/-- A timeline in steps for this many controls: every segment has a column, and it is finite. -/
structure Stepwise (t : Timeline α) (numControls : ℕ) : Prop where
  steps : t.interpolation = .step
  rows : t.numControls = numControls
  columns : t.numSegments ≤ t.coeffs.cols
  finite : ∀ k < t.numSegments, ∀ m < numControls,
    Scalar.isFinite (t.coeffs.getD m k Scalar.zero) = true

theorem stepwise_of_validate {t : Timeline α} (h : t.validate = .ok ()) (hsteps : t.interpolation = .step) :
    t.Stepwise t.numControls := by
  obtain ⟨-, hfinite⟩ := finite_of_validate h
  have hcolumns : t.numSegments ≤ t.coeffs.cols := by
    rcases cols_of_validate h with ⟨hcols, -⟩ | hcols <;> omega
  refine ⟨hsteps, rfl, hcolumns, fun k hk m hm => hfinite _ ?_⟩
  exact Array.mem_of_getElem? (Grid.getElem?_eq_getD hm (hk.trans_le hcolumns) _)

theorem stepwise_steps {numControls : ℕ} {segments : List (α × List α)}
    (hlength : ∀ s ∈ segments, s.2.length = numControls)
    (hfinite : ∀ s ∈ segments, ∀ x ∈ s.2, Scalar.isFinite x = true) :
    (steps numControls segments).Stepwise numControls := by
  have hcols : (steps numControls segments).coeffs.cols = segments.length := by
    simp [steps, Grid.ofColumns]
  refine ⟨rfl, rfl, ?_, fun k hk m hm => ?_⟩
  · rw [numSegments_steps, hcols]
  · rw [numSegments_steps] at hk
    have hgiven : (steps numControls segments).coeffs.column? k = some segments[k].2 :=
      Grid.column?_ofColumns (by simp [hk]) (hlength _ (List.getElem_mem hk))
    rw [Grid.column?_eq (hcols ▸ hk) Scalar.zero] at hgiven
    refine hfinite segments[k] (List.getElem_mem hk) _ ?_
    rw [← Option.some.inj hgiven]
    exact List.mem_map.mpr ⟨m, List.mem_range.mpr hm, rfl⟩

theorem Stepwise.segmentCoeffs {t : Timeline α} {numControls : ℕ} (h : t.Stepwise numControls) {k : ℕ}
    (hk : k < t.numSegments) : t.segmentCoeffs k = some (t.columnAt k) :=
  segmentCoeffs_eq (hk.trans_le h.columns)

theorem Stepwise.finite_columnAt {t : Timeline α} {numControls : ℕ} (h : t.Stepwise numControls) {k : ℕ}
    (hk : k < t.numSegments) : ∀ x ∈ t.columnAt k, Scalar.isFinite x = true := by
  intro x hx
  obtain ⟨m, hm, rfl⟩ := List.mem_map.mp hx
  exact h.finite k hk m (h.rows ▸ List.mem_range.mp hm)

end Timeline

namespace EvolutionProblem

variable {α : Type} [Scalar α]

theorem segmentHamiltonian?_eq {t : Timeline α} {numControls : ℕ} (h : t.Stepwise numControls) {k : ℕ}
    (hk : k < t.numSegments) (controls : List (ControlOperator α)) (ops : List (Operator α))
    (initial : State α) : segmentHamiltonian? ⟨controls, t, ops, initial⟩ k =
      some (weightedSum initial.dim (controls.zip (t.columnAt k))) := by
  unfold segmentHamiltonian?
  simp only [h.segmentCoeffs hk, Option.map_some]

/-- Adds a multiple of an operator, whatever its coefficient is. -/
def addMultiple (h : Operator α) (term : ControlOperator α × α) : Operator α :=
  Grid.ofFn h.rows h.cols fun i j =>
    h.entry i j + Amplitude.ofReal term.2 * term.1.matrix.entry i j

/-- Sum of all controls, each times its coefficient. -/
def sumOfAll (dim : ℕ) (terms : List (ControlOperator α × α)) : Operator α :=
  terms.foldl addMultiple (Operator.zero dim dim)

/-- A step of a sum, which may pass over a coefficient of zero. -/
def Adds (step : Operator α → ControlOperator α × α → Operator α) : Prop :=
  ∀ h term, step h term = addMultiple h term ∨ Scalar.eq term.2 Scalar.zero = true ∧ step h term = h

theorem adds_addMultiple : Adds (addMultiple : Operator α → _) := fun _ _ => .inl rfl

theorem adds_addTerm : Adds (addTerm : Operator α → _) := by
  intro h term
  unfold addTerm
  split_ifs with hzero
  · exact .inr ⟨hzero, rfl⟩
  · exact .inl rfl

theorem Adds.shape {step : Operator α → ControlOperator α × α → Operator α} (hstep : Adds step)
    (h : Operator α) (term : ControlOperator α × α) :
    (step h term).rows = h.rows ∧ (step h term).cols = h.cols := by
  rcases hstep h term with hsum | ⟨-, hsum⟩ <;> rw [hsum] <;> exact ⟨rfl, rfl⟩

theorem Adds.shape_foldl {step : Operator α → ControlOperator α × α → Operator α} (hstep : Adds step)
    (terms : List (ControlOperator α × α)) (h : Operator α) :
    (terms.foldl step h).rows = h.rows ∧ (terms.foldl step h).cols = h.cols := by
  induction terms generalizing h with
  | nil => exact ⟨rfl, rfl⟩
  | cons term terms ih =>
    obtain ⟨hrows, hcols⟩ := ih (step h term)
    obtain ⟨hrows', hcols'⟩ := hstep.shape h term
    exact ⟨hrows.trans hrows', hcols.trans hcols'⟩

theorem shape_weightedSum (dim : ℕ) (terms : List (ControlOperator α × α)) :
    (weightedSum dim terms).rows = dim ∧ (weightedSum dim terms).cols = dim :=
  adds_addTerm.shape_foldl terms _

theorem shape_sumOfAll (dim : ℕ) (terms : List (ControlOperator α × α)) :
    (sumOfAll dim terms).rows = dim ∧ (sumOfAll dim terms).cols = dim :=
  adds_addMultiple.shape_foldl terms _

end EvolutionProblem

/-- Every entry compares as equal to the conjugate of the entry across the diagonal. -/
structure Operator.Hermitian {α : Type} [Scalar α] (a : Operator α) : Prop where
  square : a.rows = a.cols
  re : ∀ i < a.rows, ∀ j < a.cols, Scalar.eq (a.entry j i).re (a.entry i j).conj.re = true
  im : ∀ i < a.rows, ∀ j < a.cols, Scalar.eq (a.entry j i).im (a.entry i j).conj.im = true

/-- On every segment of its timeline the problem has a Hamiltonian. It is the sum of all controls, each
times its coefficient, and Hermitian. -/
def EvolutionProblem.HermitianSums {α : Type} [Scalar α] (p : EvolutionProblem α) : Prop :=
  ∀ k < p.timeline.numSegments, ∃ h, p.segmentHamiltonian? k = some h ∧
    h = sumOfAll p.initialState.dim (p.controls.zip (p.timeline.columnAt k)) ∧ h.Hermitian

end QubitPulse
