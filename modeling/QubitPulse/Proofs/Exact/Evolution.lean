import QubitPulse.Proofs.Exact.Exponential
import QubitPulse.Proofs.Exact.Series
import QubitPulse.Proofs.Result

/-!
# Exact evolution along a timeline

The Hamiltonian of a segment is the sum of the controls, each times its coefficient; the propagators of
the segments are multiplied in order of time.
-/
namespace QubitPulse

open Matrix NormedSpace

variable {n : ℕ}

abbrev ControlsAct (controls : List (ControlOperator ℝ)) (Hs : List (Matrix (Basis n) (Basis n) ℂ)) :
    Prop :=
  List.Forall₂ (fun c H => c.matrix.ActsAs H) controls Hs

theorem ControlsAct.dim {controls : List (ControlOperator ℝ)}
    {Hs : List (Matrix (Basis n) (Basis n) ℂ)} (h : ControlsAct controls Hs) :
    ∀ c ∈ controls, c.dim = registerDim n := by
  intro c hc
  obtain ⟨i, hi, rfl⟩ := List.mem_iff_getElem.mp hc
  exact (h.get hi (h.length_eq ▸ hi)).rows

namespace EvolutionProblem

theorem addTerm_represents {m : ℕ} {h : Operator ℝ} {A H : Matrix (Fin n) (Fin m) ℂ}
    {c : ControlOperator ℝ} (hA : h.Represents A) (hH : c.matrix.Represents H) (x : ℝ) :
    (addTerm h (c, x)).Represents (A + (x : ℂ) • H) := by
  unfold addTerm
  simp only [Scalar.eq_real, Scalar.zero_real, decide_eq_true_eq]
  split_ifs with hx
  · rw [hx, Complex.ofReal_zero, zero_smul, add_zero]
    exact hA
  · obtain ⟨rfl, rfl, hA⟩ := hA
    apply Operator.represents_ofFn
    intro i j hi hj
    rw [Amplitude.toComplex_add, Amplitude.toComplex_mul, Amplitude.toComplex_ofReal,
      Matrix.add_apply, Matrix.smul_apply, smul_eq_mul, ← hA, ← hH.entry]

theorem addTerm_actsAs {h : Operator ℝ} {A H : Matrix (Basis n) (Basis n) ℂ} {c : ControlOperator ℝ}
    (hA : h.ActsAs A) (hH : c.matrix.ActsAs H) (x : ℝ) :
    (addTerm h (c, x)).ActsAs (A + (x : ℂ) • H) :=
  addTerm_represents hA hH x

theorem weightedSum_actsAs {controls : List (ControlOperator ℝ)}
    {Hs : List (Matrix (Basis n) (Basis n) ℂ)} (h : ControlsAct controls Hs) (column : List ℝ) :
    (weightedSum (registerDim n) (controls.zip column)).ActsAs
      ((Hs.zip column).map fun p => (p.2 : ℂ) • p.1).sum := by
  have hfold : ∀ {a A}, a.ActsAs A → ((controls.zip column).foldl addTerm a).ActsAs
      (A + ((Hs.zip column).map fun p => (p.2 : ℂ) • p.1).sum) := by
    induction h generalizing column with
    | nil => simp
    | cons hH _ ih =>
      intro a A ha
      cases column with
      | nil => simpa using ha
      | cons x column =>
        rw [List.zip_cons_cons, List.foldl_cons, List.zip_cons_cons, List.map_cons, List.sum_cons,
          ← add_assoc]
        exact ih column (addTerm_actsAs ha hH x)
  rw [← zero_add (List.sum _)]
  exact hfold .zero

end EvolutionProblem

/-- A sum of matrices in which a single one has a weight. -/
theorem sum_zip_set {Hs : List (Matrix (Basis n) (Basis n) ℂ)} {row : ℕ}
    {H : Matrix (Basis n) (Basis n) ℂ} (h : Hs[row]? = some H) (x : ℝ) :
    ((Hs.zip ((List.replicate Hs.length 0).set row x)).map fun p => (p.2 : ℂ) • p.1).sum =
      (x : ℂ) • H := by
  have hzeros : ∀ Hs : List (Matrix (Basis n) (Basis n) ℂ),
      ((Hs.zip (List.replicate Hs.length (0 : ℝ))).map fun p => (p.2 : ℂ) • p.1).sum = 0 := by
    intro Hs
    induction Hs with
    | nil => rfl
    | cons H Hs ih => simpa [List.replicate_succ] using ih
  induction Hs generalizing row with
  | nil => simp at h
  | cons H' Hs ih =>
    cases row with
    | zero =>
      obtain rfl : H' = H := by simpa using h
      simpa [List.replicate_succ] using hzeros Hs
    | succ row => simpa [List.replicate_succ] using ih (by simpa using h)

/-- Without rounding, the differences of running sums are what was summed. -/
theorem Timeline.differences_accumulate (start : ℝ) (ds : List ℝ) :
    differences (accumulate start ds) = ds := by
  induction ds generalizing start with
  | nil => rfl
  | cons d ds ih =>
    have hfirst : start + d - start = d := add_sub_cancel_left start d
    cases ds with
    | nil => exact congrArg (· :: []) hfirst
    | cons d' ds => exact congrArg₂ List.cons hfirst (ih (start + d))

namespace AnalyticalEvolution

/-- Exact propagation gives the exponentials of the Hamiltonians, segment by segment. -/
theorem propagatorsFrom_exact {p : EvolutionProblem ℝ} {k : ℕ} {ds : List ℝ}
    {Us : List (Matrix (Basis n) (Basis n) ℂ)} (hlength : ds.length = Us.length)
    (h : ∀ (i : ℕ) (d : ℝ) U, ds[i]? = some d → Us[i]? = some U →
      ∃ H, (hamiltonian p (k + i)).ActsAs H ∧ exp ((-(Complex.I * d)) • H) = U) :
    ∃ us, propagatorsFrom Operator.exactPropagator p k ds = .ok us ∧
      List.Forall₂ Operator.ActsAs us Us := by
  induction ds generalizing k Us with
  | nil =>
    obtain rfl := List.length_eq_zero_iff.mp hlength.symm
    exact ⟨[], rfl, .nil⟩
  | cons d ds ih =>
    obtain ⟨U, Us, rfl⟩ := List.exists_cons_of_length_eq_add_one hlength.symm
    obtain ⟨H, hH, hU⟩ := h 0 d U rfl rfl
    obtain ⟨u, hu, hacts⟩ := Operator.exactPropagator_actsAs hH d
    obtain ⟨us, hus, hrest⟩ := ih (k := k + 1) (by simpa using hlength) fun i d U hd hU => by
      have hnext := h (i + 1) d U hd hU
      rwa [← add_assoc, add_right_comm] at hnext
    refine ⟨u :: us, ?_, .cons (hU ▸ hacts) hrest⟩
    exact Result.bind_eq_ok.mpr ⟨u, hu, Result.bind_eq_ok.mpr ⟨us, hus, rfl⟩⟩

/-- The product of propagators stores the product of their matrices, later ones to the left. -/
theorem timeOrdered_represents {m : ℕ} {us : List (Operator ℝ)} {Us : List (Matrix (Fin m) (Fin m) ℂ)}
    (h : List.Forall₂ Operator.Represents us Us) :
    (timeOrdered m us).Represents Us.reverse.prod := by
  have hfold : ∀ {a : Operator ℝ} {A}, a.Represents A →
      (us.foldl (fun total u => u.mul total) a).Represents (Us.reverse.prod * A) := by
    induction h with
    | nil => simp
    | cons hu _ ih =>
      intro a A ha
      rw [List.foldl_cons, List.reverse_cons, List.prod_append, List.prod_singleton, mul_assoc]
      exact ih (hu.mul ha)
  rw [← mul_one (List.prod _)]
  exact hfold .identity

theorem timeOrdered_actsAs {us : List (Operator ℝ)} {Us : List (Matrix (Basis n) (Basis n) ℂ)}
    (h : List.Forall₂ Operator.ActsAs us Us) :
    (timeOrdered (registerDim n) us).ActsAs Us.reverse.prod := by
  have hnumbered : List.Forall₂ Operator.Represents us (Us.map (Operator.renumber n)) :=
    List.forall₂_map_right_iff.mpr (h.imp fun _ _ => Operator.actsAs_iff_renumber.mp)
  rw [Operator.actsAs_iff_renumber, map_list_prod, List.map_reverse]
  exact timeOrdered_represents hnumbered

end AnalyticalEvolution
end QubitPulse
