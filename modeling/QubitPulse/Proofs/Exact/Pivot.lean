import Mathlib
import QubitPulse.Operator.Distance
import QubitPulse.Proofs.Exact.Norm
import QubitPulse.Proofs.Exact.State

/-!
# The pivot of an operator

Operators are compared up to a factor that is read off at one place, the pivot: in the order of storage, the
last place where the second of them is largest. A factor of modulus one does not move it.
-/
namespace QubitPulse

/-- The last of the positions below a bound at which a weight is largest. -/
structure LastLargest (weight : ℕ → ℝ) (bound k : ℕ) : Prop where
  lt : k < bound
  largest : ∀ j < bound, weight j ≤ weight k
  last : ∀ j < bound, k < j → weight j < weight k

theorem LastLargest.unique {weight : ℕ → ℝ} {bound k l : ℕ} (hk : LastLargest weight bound k)
    (hl : LastLargest weight bound l) : k = l := by
  rcases lt_trichotomy k l with h | h | h
  · exact absurd (hl.largest k hk.lt) (not_le.mpr (hk.last l hl.lt h))
  · exact h
  · exact absurd (hk.largest l hl.lt) (not_le.mpr (hl.last k hk.lt h))

/-- One more position takes over if its weight is not below the largest so far. -/
theorem LastLargest.step {weight : ℕ → ℝ} {bound k : ℕ} (h : LastLargest weight bound k)
    (hle : weight k ≤ weight bound) : LastLargest weight (bound + 1) bound := by
  refine ⟨Nat.lt_succ_self bound, fun j hj => ?_, fun j hj hlast => by omega⟩
  rcases Nat.lt_succ_iff_lt_or_eq.mp hj with hj | rfl
  · exact (h.largest j hj).trans hle
  · exact le_rfl

theorem LastLargest.stay {weight : ℕ → ℝ} {bound k : ℕ} (h : LastLargest weight bound k)
    (hlt : weight bound < weight k) : LastLargest weight (bound + 1) k := by
  refine ⟨Nat.lt_succ_of_lt h.lt, fun j hj => ?_, fun j hj hlast => ?_⟩
  · rcases Nat.lt_succ_iff_lt_or_eq.mp hj with hj | rfl
    · exact h.largest j hj
    · exact hlt.le
  · rcases Nat.lt_succ_iff_lt_or_eq.mp hj with hj | rfl
    · exact h.last j hj hlast
    · exact hlt

namespace Operator

/-- The amplitude at a storage index, zero beyond the last one. -/
noncomputable def valueAt (a : Operator ℝ) (k : ℕ) : ℂ := (a.entries.getD k .zero).toComplex

theorem valueAt_scale (a : Operator ℝ) (u : ℂ) (k : ℕ) :
    (a.scale (.ofComplex u)).valueAt k = a.valueAt k * u := by
  unfold valueAt scale Grid.map
  by_cases hk : k < a.entries.size
  · simp [Array.getD, hk]
  · simp [Array.getD, hk]

theorem size_scale (a : Operator ℝ) (z : Amplitude ℝ) : (a.scale z).entries.size = a.entries.size :=
  Array.size_map

theorem toComplex_entry (a : Operator ℝ) (i : ℕ) {j : ℕ} (hj : j < a.cols) :
    (a.entry i j).toComplex = a.valueAt (i * a.cols + j) := by
  rw [entry, Grid.getD, if_pos hj, valueAt]

theorem eq_of_valueAt {a b : Operator ℝ} (hrows : a.rows = b.rows) (hcols : a.cols = b.cols)
    (h : ∀ k < a.entries.size, a.valueAt k = b.valueAt k) : a = b := by
  refine ext_of_entry hrows hcols fun i hi j hj => Amplitude.toComplex_injective ?_
  rw [toComplex_entry a i hj, toComplex_entry b i (hcols ▸ hj), ← hcols]
  exact h _ (a.size_eq ▸ Grid.index_lt hi hj)

theorem size_eq_of_shape {a b : Operator ℝ} (hrows : a.rows = b.rows) (hcols : a.cols = b.cols) :
    a.entries.size = b.entries.size := by
  rw [a.size_eq, b.size_eq, hrows, hcols]

/-! ## The pivot -/

/-- The last place, in the order of storage, in which an operator is largest. -/
def IsPivot (b : Operator ℝ) (k : ℕ) : Prop := LastLargest (fun j => ‖b.valueAt j‖) b.entries.size k

theorem totalLe_norm (z w : Amplitude ℝ) :
    Scalar.totalLe z.norm w.norm = decide (‖z.toComplex‖ ≤ ‖w.toComplex‖) := by
  rw [Amplitude.norm_real, Amplitude.norm_real]
  rfl

/-- One step of the search for the pivot. -/
noncomputable def keepLarger (b : Operator ℝ) (best : Option ℕ) (k : ℕ) : Option ℕ :=
  some (best.elim k fun l => if ‖b.valueAt l‖ ≤ ‖b.valueAt k‖ then k else l)

theorem pivot_eq_foldl (b : Operator ℝ) :
    b.pivot = (List.range b.entries.size).foldl b.keepLarger none := by
  unfold pivot
  congr 1
  funext best k
  cases best with
  | none => rfl
  | some l =>
    simp only [totalLe_norm, decide_eq_true_eq, keepLarger, Option.elim_some, apply_ite some]
    rfl

/-- An operator with entries has a pivot, the last of its entries of largest modulus. -/
theorem exists_pivot {b : Operator ℝ} (h : 0 < b.entries.size) :
    ∃ k, b.pivot = some k ∧ b.IsPivot k := by
  -- the search has seen the positions up to a bound
  have hsearch : ∀ bound, ∃ k, (List.range (bound + 1)).foldl b.keepLarger none = some k ∧
      LastLargest (fun j => ‖b.valueAt j‖) (bound + 1) k := by
    intro bound
    induction bound with
    | zero => exact ⟨0, rfl, by omega, fun j hj => by simp [Nat.lt_one_iff.mp hj], fun j hj => by omega⟩
    | succ bound ih =>
      obtain ⟨k, hfold, hk⟩ := ih
      rw [List.range_succ, List.foldl_append, hfold, List.foldl_cons, List.foldl_nil]
      rcases le_or_gt ‖b.valueAt k‖ ‖b.valueAt (bound + 1)‖ with hle | hlt
      · exact ⟨bound + 1, congrArg some (if_pos hle), hk.step hle⟩
      · exact ⟨k, congrArg some (if_neg (not_le.mpr hlt)), hk.stay hlt⟩
  obtain ⟨bound, hbound⟩ := Nat.exists_eq_add_one.mpr h
  unfold IsPivot
  rw [pivot_eq_foldl, hbound]
  exact hsearch bound

theorem pivot_eq_none {b : Operator ℝ} (h : b.entries.size = 0) : b.pivot = none := by
  rw [pivot, h]
  rfl

theorem pivot_eq_some {b : Operator ℝ} {k : ℕ} : b.pivot = some k ↔ b.IsPivot k := by
  rcases Nat.eq_zero_or_pos b.entries.size with h | h
  · rw [pivot_eq_none h]
    exact iff_of_false (by simp) fun hk => absurd hk.lt (by omega)
  · obtain ⟨l, hpivot, hl⟩ := exists_pivot h
    rw [hpivot]
    exact ⟨fun hk => Option.some.inj hk ▸ hl, fun hk => congrArg some (hl.unique hk)⟩

/-- A factor of modulus one does not move the pivot. -/
theorem isPivot_scale (b : Operator ℝ) {u : ℂ} (hu : ‖u‖ = 1) {k : ℕ} :
    (b.scale (.ofComplex u)).IsPivot k ↔ b.IsPivot k := by
  simp only [IsPivot, size_scale, valueAt_scale, norm_mul, hu, mul_one]

end Operator
end QubitPulse
