import QubitPulse.Proofs.Evolution.Hamiltonian
import QubitPulse.Proofs.Exact.Series
import QubitPulse.Proofs.Exact.State
import QubitPulse.Proofs.SpinChain.Compilation

/-!
# Evolution along segments

A segment is propagated by a function of its own duration and column, so the propagators of segments
in a row are those of each of them. Without rounding every square Hamiltonian has a propagator, and the
evolution along two timelines in a row is the evolution along their concatenation.
-/
namespace QubitPulse

open Matrix

namespace Operator

/-- A square Hamiltonian has a propagator of its shape. -/
theorem exists_propagator {h : Operator ℝ} {m : ℕ} (hrows : h.rows = m) (hcols : h.cols = m)
    (dt : ℝ) : ∃ u, propagator h dt = .ok u ∧ u.rows = m ∧ u.cols = m := by
  have hgenerator := (represents_toMatrix hrows hcols).scale ⟨Scalar.zero, -dt⟩
  obtain ⟨u, hu, _, -, hexp⟩ := exp_represents hgenerator
  exact ⟨u, hu, hexp.rows, hexp.cols⟩

/-- A square operator on the states of a register acts as some matrix. -/
theorem exists_actsAs {n : ℕ} {u : Operator ℝ} (hrows : u.rows = registerDim n)
    (hcols : u.cols = registerDim n) : ∃ M : Matrix (Basis n) (Basis n) ℂ, u.ActsAs M := by
  refine ⟨(u.toMatrix (registerDim n) (registerDim n)).submatrix (Basis.numbering n)
    (Basis.numbering n), ?_⟩
  unfold ActsAs
  rw [Matrix.submatrix_submatrix]
  simpa using represents_toMatrix hrows hcols

end Operator

namespace AnalyticalEvolution

section Segments

variable {α : Type} [Scalar α] (propagate : Propagation α) (controls : List (ControlOperator α))

/-- The propagator of a segment by itself. -/
def segmentPropagator (dim : ℕ) (segment : α × List α) : Result α (Operator α) :=
  propagate (EvolutionProblem.weightedSum dim (controls.zip segment.2)) segment.1

/-- Along steps, every segment is propagated by itself. -/
theorem propagatorsFrom_steps {numControls : ℕ} (initial : State α) (before rest : List (α × List α))
    (h : ∀ s ∈ before ++ rest, s.2.length = numControls) :
    propagatorsFrom propagate ⟨controls, .steps numControls (before ++ rest), [], initial⟩
      before.length (rest.map Prod.fst) =
      rest.mapM (segmentPropagator propagate controls initial.dim) := by
  induction rest generalizing before with
  | nil => rfl
  | cons s rest ih =>
    have hcolumn : (Timeline.steps numControls (before ++ s :: rest)).segmentCoeffs before.length =
        some s.2 :=
      Grid.column?_ofColumns (by simp) (h s (by simp))
    have hhamiltonian : hamiltonian ⟨controls, .steps numControls (before ++ s :: rest), [], initial⟩
        before.length = EvolutionProblem.weightedSum initial.dim (controls.zip s.2) := by
      unfold hamiltonian EvolutionProblem.segmentHamiltonian?
      simp only [hcolumn, Option.map_some, Option.getD_some]
    have hrest := ih (before ++ [s]) (by simpa using h)
    rw [List.append_assoc, List.singleton_append, List.length_append, List.length_singleton] at hrest
    rw [List.map_cons, propagatorsFrom, hhamiltonian, hrest, List.mapM_cons]
    rfl

end Segments

section Totals

variable {n : ℕ}

/-- Operators on the states of a register. -/
def Fit (n : ℕ) (us : List (Operator ℝ)) : Prop :=
  ∀ u ∈ us, u.rows = registerDim n ∧ u.cols = registerDim n

theorem exists_actsAs {us : List (Operator ℝ)} (h : Fit n us) :
    ∃ Us : List (Matrix (Basis n) (Basis n) ℂ), List.Forall₂ Operator.ActsAs us Us := by
  induction us with
  | nil => exact ⟨[], .nil⟩
  | cons u us ih =>
    obtain ⟨U, hU⟩ := Operator.exists_actsAs (h u (by simp)).1 (h u (by simp)).2
    obtain ⟨Us, hUs⟩ := ih fun u hu => h u (by simp [hu])
    exact ⟨U :: Us, .cons hU hUs⟩

theorem shape_totalOf {us : List (Operator ℝ)} (h : Fit n us) (phase : ℝ) :
    (totalOf (registerDim n) phase us).rows = registerDim n ∧
      (totalOf (registerDim n) phase us).cols = registerDim n := by
  obtain ⟨Us, hUs⟩ := exists_actsAs h
  exact ⟨(totalOf_actsAs hUs phase).rows, (totalOf_actsAs hUs phase).cols⟩

/-- The propagators of two evolutions in a row have the product of their totals as total. -/
theorem totalOf_append {us vs : List (Operator ℝ)} (hus : Fit n us) (hvs : Fit n vs) (φ ψ : ℝ) :
    totalOf (registerDim n) (φ + ψ) (us ++ vs) =
      (totalOf (registerDim n) ψ vs).mul (totalOf (registerDim n) φ us) := by
  obtain ⟨Us, hUs⟩ := exists_actsAs hus
  obtain ⟨Vs, hVs⟩ := exists_actsAs hvs
  have honce := totalOf_actsAs (List.rel_append hUs hVs) (φ + ψ)
  have htwice := (totalOf_actsAs hVs ψ).mul (totalOf_actsAs hUs φ)
  have hproduct : Complex.exp ((φ + ψ : ℝ) * Complex.I) • (Us ++ Vs).reverse.prod =
      (Complex.exp (ψ * Complex.I) • Vs.reverse.prod) *
        (Complex.exp (φ * Complex.I) • Us.reverse.prod) := by
    rw [List.reverse_append, List.prod_append, smul_mul_smul_comm, ← Complex.exp_add,
      Complex.ofReal_add, add_mul, add_comm]
  exact honce.unique (hproduct ▸ htwice)

end Totals

section Runs

variable {n : ℕ} {controls : List (ControlOperator ℝ)} {initial : State ℝ}

/-- Along steps for all controls, every state of the register evolves. -/
theorem computeWith_steps (hn : n ≤ SpinChain.mostQubits)
    (hcontrols : ∀ c ∈ controls, c.dim = registerDim n)
    {segments : List (ℝ × List ℝ)} (hsegments : ∀ s ∈ segments, s.2.length = controls.length)
    (hinitial : initial.checkDim (registerDim n) = .ok ()) (phase : ℝ) :
    ∃ us final, segments.mapM (segmentPropagator Operator.propagator controls (registerDim n)) = .ok us ∧
      Fit n us ∧ initial.evolve (totalOf (registerDim n) phase us) = .ok final ∧
      computeWith Operator.propagator controls (.steps controls.length segments) initial phase =
        .ok ⟨us, phase, totalOf (registerDim n) phase us, final⟩ := by
  obtain ⟨-, hdim⟩ := State.checkDim_eq_ok.mp hinitial
  obtain ⟨us, hus, hfit⟩ : ∃ us,
      segments.mapM (segmentPropagator Operator.propagator controls (registerDim n)) = .ok us ∧
      Fit n us :=
    Result.exists_mapM_forall fun s _ =>
      have hshape := EvolutionProblem.shape_weightedSum (registerDim n) (controls.zip s.2)
      Operator.exists_propagator hshape.1 hshape.2 s.1
  have hpropagators : propagatorsFrom Operator.propagator
      ⟨controls, .steps controls.length segments, [], initial⟩ 0 (segments.map Prod.fst) = .ok us := by
    rw [← hus, ← hdim]
    exact propagatorsFrom_steps Operator.propagator controls initial [] segments hsegments
  obtain ⟨hrows, hcols⟩ := shape_totalOf hfit phase
  rw [← Timeline.durations_steps controls.length] at hpropagators
  obtain ⟨final, hfinal, hcompute⟩ :=
    SpinChain.exists_computeWith hn hcontrols hinitial rfl rfl hpropagators hrows hcols
  exact ⟨us, final, hus, hfit, hfinal, hcompute⟩

end Runs

end AnalyticalEvolution
end QubitPulse
