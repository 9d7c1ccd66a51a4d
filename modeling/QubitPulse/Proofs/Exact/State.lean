import QubitPulse.Proofs.Evolution.Analytical
import QubitPulse.Proofs.Exact.Exponential
import QubitPulse.Proofs.Grid

/-!
# States as vectors and matrices

Over exact arithmetic a stored operator is determined by the matrix it stores, so laws of matrices are
laws of stored operators. Evolving a state twice is evolving it once by the product.
-/
namespace QubitPulse

open Matrix

theorem Amplitude.toComplex_injective : Function.Injective Amplitude.toComplex := fun z w h => by
  cases z
  cases w
  exact congrArg ofComplex h

theorem Amplitude.normSq_real (z : Amplitude ℝ) : z.normSq = Complex.normSq z.toComplex :=
  (Complex.normSq_apply z.toComplex).symm

namespace Operator

/-- Operators of one shape with the same entries are the same. -/
theorem ext_of_entry {α : Type} [Scalar α] {a b : Operator α} (hrows : a.rows = b.rows)
    (hcols : a.cols = b.cols) (h : ∀ i < a.rows, ∀ j < a.cols, a.entry i j = b.entry i j) : a = b := by
  obtain ⟨rows, cols, xs, hxs⟩ := a
  obtain ⟨rows', cols', ys, hys⟩ := b
  obtain rfl : rows = rows' := hrows
  obtain rfl : cols = cols' := hcols
  congr 1
  refine Array.ext (hxs.trans hys.symm) fun k hk hk' => ?_
  obtain ⟨i, hi, j, hj, rfl⟩ := Grid.exists_position (hxs ▸ hk)
  simpa [entry, Grid.getD, hj, hk, hk'] using h i hi j hj

section Matrices

variable {l m n : ℕ} {a b : Operator ℝ}

/-- An operator is determined by the matrix it stores. -/
theorem Represents.unique {M : Matrix (Fin m) (Fin n) ℂ} (ha : a.Represents M) (hb : b.Represents M) :
    a = b := by
  obtain ⟨rfl, rfl, ha⟩ := ha
  obtain ⟨hrows, hcols, hb⟩ := hb
  refine ext_of_entry hrows.symm hcols.symm fun i hi j hj => Amplitude.toComplex_injective ?_
  exact (ha ⟨i, hi⟩ ⟨j, hj⟩).trans (hb ⟨i, hi⟩ ⟨j, hj⟩).symm

theorem represents_toMatrix (hrows : a.rows = m) (hcols : a.cols = n) :
    a.Represents (a.toMatrix m n) :=
  ⟨hrows, hcols, fun _ _ => rfl⟩

theorem Represents.dagger {M : Matrix (Fin m) (Fin n) ℂ} (h : a.Represents M) :
    a.dagger.Represents Mᴴ := by
  obtain ⟨rfl, rfl, h⟩ := h
  refine represents_ofFn fun i j hi hj => ?_
  rw [Matrix.conjTranspose_apply, ← h]
  rfl

end Matrices

section Vectors

/-- Adding the terms of a range to an amplitude. -/
theorem toComplex_foldl_range (f : ℕ → Amplitude ℝ) (n : ℕ) (z : Amplitude ℝ) :
    ((List.range n).foldl (fun z k => z + f k) z).toComplex =
      z.toComplex + ∑ k ∈ Finset.range n, (f k).toComplex := by
  induction n with
  | zero => simp
  | succ n ih =>
    rw [List.range_succ, List.foldl_append, List.foldl_cons, List.foldl_nil, Amplitude.toComplex_add,
      ih, Finset.sum_range_succ, add_assoc]

/-- The order in which lanes are summed does not matter without rounding. -/
theorem toComplex_sumInLanes (n : ℕ) (f : ℕ → Amplitude ℝ) :
    (Amplitude.sumInLanes n f).toComplex = ∑ k ∈ Finset.range n, (f k).toComplex := by
  have hblocks : ∀ blocks, ∑ k ∈ Finset.range (8 * blocks), (f k).toComplex =
      ∑ b ∈ Finset.range blocks, ∑ lane ∈ Finset.range 8, (f (8 * b + lane)).toComplex := by
    intro blocks
    induction blocks with
    | zero => rfl
    | succ blocks ih =>
      rw [Nat.mul_succ, Finset.sum_range_add, ih]
      exact (Finset.sum_range_succ _ blocks).symm
  have hlane : ∀ lane, (Amplitude.laneSum (n / 8) lane f).toComplex =
      ∑ b ∈ Finset.range (n / 8), (f (8 * b + lane)).toComplex := fun lane =>
    (toComplex_foldl_range (fun b => f (8 * b + lane)) _ _).trans (zero_add _)
  conv_rhs => rw [← Nat.div_add_mod n 8, Finset.sum_range_add, hblocks]
  unfold Amplitude.sumInLanes
  simp only [toComplex_foldl_range, Amplitude.toComplex_add, Amplitude.toComplex_zero, hlane]
  simp only [Finset.sum_range_succ _ 7, Finset.sum_range_succ _ 6, Finset.sum_range_succ _ 5,
    Finset.sum_range_succ _ 4, Finset.sum_range_succ _ 3, Finset.sum_range_succ _ 2,
    Finset.sum_range_succ _ 1, Finset.sum_range_one, Finset.sum_add_distrib]
  ring

theorem toComplex_apply {a : Operator ℝ} {i : ℕ} (hi : i < a.rows) (v : Array (Amplitude ℝ)) :
    ((a.apply v).getD i .zero).toComplex =
      ∑ k ∈ Finset.range a.cols, (a.entry i k).toComplex * (v.getD k .zero).toComplex := by
  have hread : (a.apply v).getD i .zero =
      (Amplitude.sumInLanes a.cols fun k => a.entry i k * v.getD k .zero).settled := by
    simp [Operator.apply, Array.getD, hi]
  rw [hread, Amplitude.toComplex_settled, toComplex_sumInLanes]
  simp only [Amplitude.toComplex_mul]

theorem toComplex_entry_mul {a b : Operator ℝ} (h : a.cols = b.rows) {i j : ℕ} (hi : i < a.rows)
    (hj : j < b.cols) : ((a.mul b).entry i j).toComplex =
      ∑ k ∈ Finset.range a.cols, (a.entry i k).toComplex * (b.entry k j).toComplex := by
  have hproduct := (represents_toMatrix (a := a) rfl rfl).mul (represents_toMatrix h.symm rfl)
  rw [hproduct.entry ⟨i, hi⟩ ⟨j, hj⟩, Matrix.mul_apply, Finset.sum_range]
  rfl

/-- Acting twice is acting by the product. -/
theorem apply_apply {a b : Operator ℝ} (h : a.cols = b.rows) (v : Array (Amplitude ℝ)) :
    a.apply (b.apply v) = (a.mul b).apply v := by
  refine Array.ext (by simp [Operator.apply, Operator.mul]) fun i hi hi' => ?_
  have hrow : i < a.rows := by simpa [Operator.apply] using hi
  have hread : ((a.apply (b.apply v)).getD i .zero).toComplex =
      (((a.mul b).apply v).getD i .zero).toComplex := by
    have hcols : (a.mul b).cols = b.cols := rfl
    rw [toComplex_apply hrow, toComplex_apply (show i < (a.mul b).rows from hrow), hcols]
    calc ∑ k ∈ Finset.range a.cols, (a.entry i k).toComplex * ((b.apply v).getD k .zero).toComplex
        = ∑ k ∈ Finset.range a.cols, ∑ j ∈ Finset.range b.cols,
            (a.entry i k).toComplex * ((b.entry k j).toComplex * (v.getD j .zero).toComplex) := by
          refine Finset.sum_congr rfl fun k hk => ?_
          rw [toComplex_apply (h ▸ Finset.mem_range.mp hk), Finset.mul_sum]
      _ = ∑ j ∈ Finset.range b.cols,
            ((a.mul b).entry i j).toComplex * (v.getD j .zero).toComplex := by
          rw [Finset.sum_comm]
          refine Finset.sum_congr rfl fun j hj => ?_
          rw [toComplex_entry_mul h hrow (Finset.mem_range.mp hj), Finset.sum_mul]
          simp only [mul_assoc]
  simpa [Array.getD, hi, hi'] using Amplitude.toComplex_injective hread

end Vectors
end Operator

namespace State

/-- A state under an operator. -/
noncomputable def under (s : State ℝ) (u : Operator ℝ) : State ℝ :=
  match s with
  | ket v => .ket (u.apply v)
  | density m => .density ((u.mul m).mul u.dagger)

theorem evolve_eq_ok {s t : State ℝ} {u : Operator ℝ} :
    s.evolve u = .ok t ↔ s.isSquare = true ∧ u.rows = s.dim ∧ u.cols = s.dim ∧ t = s.under u := by
  unfold evolve
  constructor
  · intro h
    obtain ⟨_, hcheck, h⟩ := Result.bind_eq_ok.mp h
    obtain ⟨hsquare, hdim⟩ := checkDim_eq_ok.mp hcheck
    split_ifs at h with hcols
    cases s <;> exact ⟨hsquare, hdim.symm, not_not.mp hcols, (Except.ok.inj h).symm⟩
  · rintro ⟨hsquare, hrows, hcols, rfl⟩
    refine Result.bind_eq_ok.mpr ⟨(), checkDim_eq_ok.mpr ⟨hsquare, hrows.symm⟩, ?_⟩
    rw [if_neg (not_not.mpr hcols)]
    cases s <;> rfl

theorem dim_under (s : State ℝ) (u : Operator ℝ) :
    (s.under u).dim = u.rows ∧ (s.under u).isSquare = true := by
  cases s with
  | ket v => exact ⟨by simp [under, dim, Operator.apply], rfl⟩
  | density m => exact ⟨rfl, by simp [under, isSquare, Operator.isSquare, Operator.mul, Operator.dagger]⟩

/-- The state after an operator has the dimension of the operator. -/
theorem checkDim_of_evolve {s t : State ℝ} {u : Operator ℝ} (h : s.evolve u = .ok t) :
    t.checkDim u.rows = .ok () := by
  obtain ⟨-, -, -, rfl⟩ := evolve_eq_ok.mp h
  obtain ⟨hdim, hsquare⟩ := dim_under s u
  exact checkDim_eq_ok.mpr ⟨hsquare, hdim⟩

theorem under_under {s : State ℝ} {u v : Operator ℝ} (hs : s.isSquare = true) (hrows : u.rows = s.dim)
    (hcols : u.cols = s.dim) (h : v.cols = u.rows) : (s.under u).under v = s.under (v.mul u) := by
  cases s with
  | ket w => exact congrArg ket (Operator.apply_apply h w)
  | density m =>
    have hm : m.Represents (m.toMatrix m.rows m.rows) :=
      Operator.represents_toMatrix rfl (by simpa [isSquare, Operator.isSquare, eq_comm] using hs)
    have hu : u.Represents (u.toMatrix u.rows m.rows) := Operator.represents_toMatrix rfl hcols
    have hv : v.Represents (v.toMatrix v.rows u.rows) := Operator.represents_toMatrix rfl h
    have htwice := (hv.mul ((hu.mul hm).mul hu.dagger)).mul hv.dagger
    have honce := ((hv.mul hu).mul hm).mul (hv.mul hu).dagger
    simp only [Matrix.conjTranspose_mul, Matrix.mul_assoc] at htwice honce
    exact congrArg density (htwice.unique honce)

/-- Evolving a state twice is evolving it once by the product. -/
theorem evolve_evolve {s t : State ℝ} {u v : Operator ℝ} (h : s.evolve u = .ok t)
    (hrows : v.rows = u.rows) (hcols : v.cols = u.rows) : t.evolve v = s.evolve (v.mul u) := by
  obtain ⟨hsquare, hu, hu', rfl⟩ := evolve_eq_ok.mp h
  obtain ⟨hdim, hsquare'⟩ := dim_under s u
  have htwice : (s.under u).evolve v = .ok ((s.under u).under v) :=
    evolve_eq_ok.mpr ⟨hsquare', hrows.trans hdim.symm, hcols.trans hdim.symm, rfl⟩
  have honce : s.evolve (v.mul u) = .ok (s.under (v.mul u)) :=
    evolve_eq_ok.mpr ⟨hsquare, hrows.trans hu, hu', rfl⟩
  rw [htwice, honce, under_under hsquare hu hu' hcols]

end State
end QubitPulse
