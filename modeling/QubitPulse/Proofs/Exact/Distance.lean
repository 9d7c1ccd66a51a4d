import Mathlib
import QubitPulse.Proofs.Exact.Pivot

/-!
# Distance up to a phase

In exact arithmetic the distance vanishes exactly between operators that differ by a factor of modulus one.
Such factors leave it as it is where the factor between the operators can be read off at the pivot. Where the
first operator vanishes there, none is removed before the two are compared, and they may change it.
-/
namespace QubitPulse

/-! ## Factors of modulus one -/

/-- Where one of two numbers vanishes, no factor changes the modulus of their difference. -/
theorem norm_mul_sub_of_vanishes {x y φ : ℂ} (hφ : ‖φ‖ = 1) (h : x = 0 ∨ y = 0) :
    ‖x * φ - y‖ = ‖x‖ + ‖y‖ := by
  rcases h with rfl | rfl <;> simp [hφ]

theorem exists_opposed (x y : ℂ) : ∃ φ : ℂ, ‖φ‖ = 1 ∧ ‖x * φ - y‖ = ‖x‖ + ‖y‖ := by
  by_cases h : x = 0 ∨ y = 0
  · exact ⟨1, norm_one, norm_mul_sub_of_vanishes norm_one h⟩
  · obtain ⟨hx, hy⟩ := not_or.mp h
    have hx' : (‖x‖ : ℂ) ≠ 0 := by simpa using hx
    have hy' : (‖y‖ : ℂ) ≠ 0 := by simpa using hy
    refine ⟨-(‖x‖ / x) * (y / ‖y‖), by simp [hx, hy], ?_⟩
    have hopposed : x * (-(‖x‖ / x) * (y / ‖y‖)) - y = -(((‖x‖ + ‖y‖ : ℝ) : ℂ) * (y / ‖y‖)) := by
      push_cast
      field_simp
      ring
    rw [hopposed, norm_neg, norm_mul, Complex.norm_of_nonneg (by positivity), norm_div, Complex.norm_real,
      norm_norm, div_self (norm_ne_zero_iff.mpr hy), mul_one]

/-- Two numbers that do not vanish are opposed by one factor at most. -/
theorem opposed_unique {x y φ ψ : ℂ} (hx : x ≠ 0) (hy : y ≠ 0) (hφ : ‖φ‖ = 1) (hψ : ‖ψ‖ = 1)
    (h : ‖x * φ - y‖ = ‖x‖ + ‖y‖) (h' : ‖x * ψ - y‖ = ‖x‖ + ‖y‖) : φ = ψ := by
  have hray : ∀ {φ : ℂ}, ‖φ‖ = 1 → ‖x * φ - y‖ = ‖x‖ + ‖y‖ → ‖x‖⁻¹ • (x * φ) = ‖y‖⁻¹ • -y := by
    intro φ hφ h
    have hnorm : ‖x * φ‖ = ‖x‖ := by rw [norm_mul, hφ, mul_one]
    have hsame : SameRay ℝ (x * φ) (-y) := by
      rw [sameRay_iff_norm_add, ← sub_eq_add_neg, hnorm, norm_neg]
      exact h
    have hne : x * φ ≠ 0 := mul_ne_zero hx (ne_zero_of_norm_ne_zero (hφ.trans_ne one_ne_zero))
    simpa only [hnorm, norm_neg] using (sameRay_iff_inv_norm_smul_eq_of_ne hne (neg_ne_zero.mpr hy)).mp hsame
  have hproduct := (hray hφ h).trans (hray hψ h').symm
  exact mul_left_cancel₀ hx (smul_right_injective ℂ (inv_ne_zero (norm_ne_zero_iff.mpr hx)) hproduct)

/-! ## Arithmetic of the distance -/

theorem Scalar.maximum_eq_zero_or_mem (xs : List ℝ) : maximum xs = 0 ∨ maximum xs ∈ xs := by
  have hfold : ∀ (xs : List ℝ) (start : ℝ), xs.foldl max start = start ∨ xs.foldl max start ∈ xs := by
    intro xs
    induction xs with
    | nil => exact fun start => .inl rfl
    | cons x xs ih =>
      intro start
      rw [List.foldl_cons, List.mem_cons]
      rcases ih (max start x) with h | h
      · rw [h, max_real, ← or_assoc]
        exact .inl (max_choice start x)
      · exact .inr (.inr h)
  exact hfold xs zero

namespace Amplitude

theorem toComplex_sub (z w : Amplitude ℝ) : (z - w).toComplex = z.toComplex - w.toComplex := rfl

theorem toComplex_divReal (z : Amplitude ℝ) (x : ℝ) : (z.divReal x).toComplex = z.toComplex / x := by
  refine Complex.ext ?_ ?_
  · exact (Complex.div_ofReal_re z.toComplex x).symm
  · exact (Complex.div_ofReal_im z.toComplex x).symm

theorem toComplex_div (z w : Amplitude ℝ) : (z / w).toComplex = z.toComplex / w.toComplex := by
  refine Complex.ext ?_ ?_
  · rw [Complex.div_re, ← add_div, ← normSq_real]
    rfl
  · rw [Complex.div_im, ← sub_div, ← normSq_real]
    rfl

end Amplitude

namespace Operator

/-! ## The factor that is removed -/

/-- The factor between two operators can be read off: neither of them vanishes at the pivot of the second. -/
def Readable (a b : Operator ℝ) : Prop :=
  ∃ k, b.IsPivot k ∧ a.valueAt k ≠ 0 ∧ b.valueAt k ≠ 0

/-- The factor that is removed before two operators are compared. -/
noncomputable def factor (a b : Operator ℝ) : ℂ := (relativePhase a b).toComplex

theorem toComplex_phaseBetween (z w : Amplitude ℝ) : (Amplitude.toComplex (phaseBetween z w)) =
    if z.toComplex ≠ 0 ∧ w.toComplex ≠ 0 then
      w.toComplex / z.toComplex / (‖w.toComplex / z.toComplex‖ : ℝ)
    else 1 := by
  unfold phaseBetween
  rw [apply_ite Amplitude.toComplex, Amplitude.toComplex_divReal]
  simp [Amplitude.norm_real, Amplitude.toComplex_div]

theorem factor_of_readable {a b : Operator ℝ} {k : ℕ} (hk : b.IsPivot k) (ha : a.valueAt k ≠ 0)
    (hb : b.valueAt k ≠ 0) :
    factor a b = b.valueAt k / a.valueAt k / (‖b.valueAt k / a.valueAt k‖ : ℝ) := by
  unfold factor relativePhase
  rw [pivot_eq_some.mpr hk]
  exact (toComplex_phaseBetween _ _).trans (if_pos ⟨ha, hb⟩)

theorem factor_of_not_readable {a b : Operator ℝ} (h : ¬Readable a b) : factor a b = 1 := by
  unfold factor relativePhase
  cases hk : b.pivot with
  | none => rfl
  | some k => exact (toComplex_phaseBetween _ _).trans (if_neg fun hne => h ⟨k, pivot_eq_some.mp hk, hne⟩)

theorem norm_factor (a b : Operator ℝ) : ‖factor a b‖ = 1 := by
  by_cases h : Readable a b
  · obtain ⟨k, hk, ha, hb⟩ := h
    have hquotient : ‖b.valueAt k / a.valueAt k‖ ≠ 0 := norm_ne_zero_iff.mpr (div_ne_zero hb ha)
    rw [factor_of_readable hk ha hb, norm_div, Complex.norm_real, norm_norm, div_self hquotient]
  · rw [factor_of_not_readable h, norm_one]

variable {a b : Operator ℝ} {u : ℂ} (hu : ‖u‖ = 1)
include hu

theorem readable_scale_left : Readable (a.scale (.ofComplex u)) b ↔ Readable a b := by
  have hne : u ≠ 0 := ne_zero_of_norm_ne_zero (hu.trans_ne one_ne_zero)
  simp [Readable, valueAt_scale, hne]

theorem readable_scale_right : Readable a (b.scale (.ofComplex u)) ↔ Readable a b := by
  have hne : u ≠ 0 := ne_zero_of_norm_ne_zero (hu.trans_ne one_ne_zero)
  simp [Readable, isPivot_scale b hu, valueAt_scale, hne]

theorem mul_factor_scale_left (h : Readable a b) : u * factor (a.scale (.ofComplex u)) b = factor a b := by
  have hne : u ≠ 0 := ne_zero_of_norm_ne_zero (hu.trans_ne one_ne_zero)
  obtain ⟨k, hk, ha, hb⟩ := h
  have ha' : (a.scale (.ofComplex u)).valueAt k ≠ 0 := by
    rw [valueAt_scale]
    exact mul_ne_zero ha hne
  rw [factor_of_readable hk ha hb, factor_of_readable hk ha' hb, valueAt_scale]
  rw [norm_div, norm_div, norm_mul, hu, mul_one]
  field_simp

theorem factor_scale_right (h : Readable a b) : factor a (b.scale (.ofComplex u)) = factor a b * u := by
  have hne : u ≠ 0 := ne_zero_of_norm_ne_zero (hu.trans_ne one_ne_zero)
  obtain ⟨k, hk, ha, hb⟩ := h
  have hb' : (b.scale (.ofComplex u)).valueAt k ≠ 0 := by
    rw [valueAt_scale]
    exact mul_ne_zero hb hne
  rw [factor_of_readable hk ha hb, factor_of_readable ((isPivot_scale b hu).mpr hk) ha hb', valueAt_scale]
  rw [norm_div, norm_div, norm_mul, hu, mul_one]
  field_simp

omit hu

/-! ## The distance -/

/-- Largest modulus of a difference of entries, with a factor for the first operator. -/
noncomputable def deviation (a b : Operator ℝ) (φ : ℂ) : ℝ :=
  Scalar.maximum ((List.range a.entries.size).map fun k => ‖a.valueAt k * φ - b.valueAt k‖)

theorem distanceUpToPhase?_of_shape (hrows : a.rows = b.rows) (hcols : a.cols = b.cols) :
    a.distanceUpToPhase? b = some (deviation a b (factor a b)) := by
  unfold distanceUpToPhase? deviation
  rw [if_pos (by simp [hrows, hcols])]
  simp only [Amplitude.norm_real, Amplitude.toComplex_sub, Amplitude.toComplex_mul]
  rfl

theorem distanceUpToPhase?_eq_none :
    a.distanceUpToPhase? b = none ↔ ¬(a.rows = b.rows ∧ a.cols = b.cols) := by
  simp [distanceUpToPhase?]

theorem deviation_le_iff {φ : ℂ} {c : ℝ} : deviation a b φ ≤ c ↔
    0 ≤ c ∧ ∀ k < a.entries.size, ‖a.valueAt k * φ - b.valueAt k‖ ≤ c := by
  simp [deviation, Scalar.maximum_le_iff]

theorem deviation_nonneg (a b : Operator ℝ) (φ : ℂ) : 0 ≤ deviation a b φ :=
  (deviation_le_iff.mp le_rfl).1

theorem le_deviation (φ : ℂ) {k : ℕ} (hk : k < a.entries.size) :
    ‖a.valueAt k * φ - b.valueAt k‖ ≤ deviation a b φ :=
  (deviation_le_iff.mp le_rfl).2 k hk

theorem deviation_attained (a b : Operator ℝ) (φ : ℂ) : deviation a b φ = 0 ∨
    ∃ k < a.entries.size, deviation a b φ = ‖a.valueAt k * φ - b.valueAt k‖ := by
  refine (Scalar.maximum_eq_zero_or_mem _).imp_right fun hmem => ?_
  obtain ⟨k, hk, heq⟩ := List.mem_map.mp hmem
  exact ⟨k, List.mem_range.mp hk, heq.symm⟩

theorem deviation_eq_zero {φ : ℂ} :
    deviation a b φ = 0 ↔ ∀ k < a.entries.size, b.valueAt k = a.valueAt k * φ := by
  rw [← (deviation_nonneg a b φ).ge_iff_eq', deviation_le_iff]
  simp only [le_refl, true_and, norm_le_zero_iff, sub_eq_zero]
  exact forall₂_congr fun k hk => eq_comm

theorem deviation_scale_left (a b : Operator ℝ) (u φ : ℂ) :
    deviation (a.scale (.ofComplex u)) b φ = deviation a b (u * φ) := by
  simp only [deviation, size_scale, valueAt_scale, mul_assoc]

theorem deviation_scale_right (hu : ‖u‖ = 1) (φ : ℂ) :
    deviation a (b.scale (.ofComplex u)) (φ * u) = deviation a b φ := by
  simp only [deviation, valueAt_scale, ← mul_assoc, ← sub_mul, norm_mul, hu, mul_one]

theorem distance_of_not_readable (h : ¬Readable a b) (hrows : a.rows = b.rows) (hcols : a.cols = b.cols) :
    a.distanceUpToPhase? b = some (deviation a b 1) := by
  rw [distanceUpToPhase?_of_shape hrows hcols, factor_of_not_readable h]

/-- Where the factor can be read off, the distance is that of the operators without their phases. -/
theorem Readable.distance_scale (h : Readable a b) (hu : ‖u‖ = 1) (hrows : a.rows = b.rows)
    (hcols : a.cols = b.cols) :
    (a.scale (.ofComplex u)).distanceUpToPhase? b = a.distanceUpToPhase? b ∧
      a.distanceUpToPhase? (b.scale (.ofComplex u)) = a.distanceUpToPhase? b := by
  rw [distanceUpToPhase?_of_shape hrows hcols]
  constructor
  · rw [distanceUpToPhase?_of_shape (a := a.scale (.ofComplex u)) hrows hcols, deviation_scale_left,
      mul_factor_scale_left hu h]
  · rw [distanceUpToPhase?_of_shape (b := b.scale (.ofComplex u)) hrows hcols, factor_scale_right hu h,
      deviation_scale_right hu]

theorem distance_self (a : Operator ℝ) : a.distanceUpToPhase? a = some 0 := by
  have hfactor : ∀ k < a.entries.size, a.valueAt k = a.valueAt k * factor a a := by
    intro k hk
    by_cases h : Readable a a
    · obtain ⟨l, hl, hne, -⟩ := h
      simp [factor_of_readable hl hne hne, hne]
    · rw [factor_of_not_readable h, mul_one]
  rw [distanceUpToPhase?_of_shape rfl rfl, deviation_eq_zero.mpr hfactor]

/-- An operator with which no factor can be read off is zero. -/
theorem valueAt_eq_zero_of_not_readable (h : ¬Readable a a) {k : ℕ} (hk : k < a.entries.size) :
    a.valueAt k = 0 := by
  obtain ⟨l, -, hl⟩ := exists_pivot (Nat.zero_lt_of_lt hk)
  have hzero : a.valueAt l = 0 := by
    by_contra hne
    exact h ⟨l, hl, hne, hne⟩
  simpa [hzero] using hl.largest k hk

/-- The distance vanishes exactly between operators that differ by a factor of modulus one. It is infinite
exactly between operators of different shapes. -/
theorem zero_distance_iff_equal_up_to_phase (a b : Operator ℝ) :
    (a.distanceUpToPhase? b = some 0 ↔ ∃ u : ℂ, ‖u‖ = 1 ∧ b = a.scale (.ofComplex u)) ∧
      (a.distanceUpToPhase? b = none ↔ ¬(a.rows = b.rows ∧ a.cols = b.cols)) := by
  refine ⟨⟨fun h => ?_, ?_⟩, distanceUpToPhase?_eq_none⟩
  · obtain ⟨hrows, hcols⟩ : a.rows = b.rows ∧ a.cols = b.cols := by
      by_contra hshape
      simp [distanceUpToPhase?_eq_none.mpr hshape] at h
    rw [distanceUpToPhase?_of_shape hrows hcols, Option.some.injEq, deviation_eq_zero] at h
    refine ⟨factor a b, norm_factor a b, eq_of_valueAt hrows.symm hcols.symm fun k hk => ?_⟩
    rw [valueAt_scale]
    exact h k (size_eq_of_shape hrows hcols ▸ hk)
  · rintro ⟨u, hu, rfl⟩
    by_cases h : Readable a a
    · rw [(h.distance_scale hu rfl rfl).2, distance_self]
    · have hscaled : a.scale (.ofComplex u) = a := eq_of_valueAt rfl rfl fun k hk => by
        rw [size_scale] at hk
        rw [valueAt_scale, valueAt_eq_zero_of_not_readable h hk, zero_mul]
      rw [hscaled, distance_self]

/-! ## Where no factor can be read off -/

/-- No sum of the moduli of two entries in one place is larger than those in places where one of the two
vanishes. -/
def Outweighed (a b : Operator ℝ) : Prop :=
  ∀ j < a.entries.size, ∃ k < a.entries.size, (a.valueAt k = 0 ∨ b.valueAt k = 0) ∧
    ‖a.valueAt j‖ + ‖b.valueAt j‖ ≤ ‖a.valueAt k‖ + ‖b.valueAt k‖

theorem Outweighed.deviation_eq (h : Outweighed a b) {φ ψ : ℂ} (hφ : ‖φ‖ = 1) (hψ : ‖ψ‖ = 1) :
    deviation a b φ = deviation a b ψ := by
  -- with either factor it is the largest sum of moduli
  have hsum : ∀ {φ : ℂ}, ‖φ‖ = 1 → ∀ c, deviation a b φ ≤ c ↔
      0 ≤ c ∧ ∀ j < a.entries.size, ‖a.valueAt j‖ + ‖b.valueAt j‖ ≤ c := by
    intro φ hφ c
    rw [deviation_le_iff]
    refine and_congr_right fun _ => ⟨fun hc j hj => ?_, fun hc j hj => ?_⟩
    · obtain ⟨k, hk, hvanishes, hle⟩ := h j hj
      exact hle.trans (norm_mul_sub_of_vanishes hφ hvanishes ▸ hc k hk)
    · refine (norm_sub_le _ _).trans ?_
      rw [norm_mul, hφ, mul_one]
      exact hc j hj
  exact eq_of_forall_ge_iff fun c => (hsum hφ c).trans (hsum hψ c).symm

/-- Some factor opposes no entries of two operators in one place, unless one of them vanishes. -/
theorem exists_unopposed (a b : Operator ℝ) : ∃ φ : ℂ, ‖φ‖ = 1 ∧ ∀ k < a.entries.size,
    ‖a.valueAt k * φ - b.valueAt k‖ = ‖a.valueAt k‖ + ‖b.valueAt k‖ →
      a.valueAt k = 0 ∨ b.valueAt k = 0 := by
  have hcircle : (Metric.sphere (0 : ℂ) 1).Infinite := by
    refine (isPreconnected_sphere (by simp) 0 1).infinite_of_nontrivial ⟨1, by simp, -1, by simp, ?_⟩
    norm_num
  let opposing (k : ℕ) : Set ℂ := {φ | ‖φ‖ = 1 ∧ a.valueAt k ≠ 0 ∧ b.valueAt k ≠ 0 ∧
    ‖a.valueAt k * φ - b.valueAt k‖ = ‖a.valueAt k‖ + ‖b.valueAt k‖}
  have hfinite : (⋃ k ∈ Finset.range a.entries.size, opposing k).Finite := by
    refine Set.Finite.biUnion (Finset.finite_toSet _) fun k _ => Set.Subsingleton.finite ?_
    rintro φ ⟨hφ, ha, hb, h⟩ ψ ⟨hψ, -, -, h'⟩
    exact opposed_unique ha hb hφ hψ h h'
  obtain ⟨φ, hφ, hfree⟩ := hcircle.exists_notMem_finite hfinite
  have hφ : ‖φ‖ = 1 := by simpa using hφ
  refine ⟨φ, hφ, fun k hk h => ?_⟩
  by_contra hne
  obtain ⟨ha, hb⟩ := not_or.mp hne
  exact hfree (Set.mem_biUnion (Finset.mem_range.mpr hk) ⟨hφ, ha, hb, h⟩)

/-- If no factor changes the largest difference, it is that of a place where one of the two vanishes. -/
theorem outweighed_of_deviation_eq (h : ∀ φ : ℂ, ‖φ‖ = 1 → deviation a b φ = deviation a b 1) :
    Outweighed a b := by
  have hsum : ∀ j < a.entries.size, ‖a.valueAt j‖ + ‖b.valueAt j‖ ≤ deviation a b 1 := by
    intro j hj
    obtain ⟨φ, hφ, hopposed⟩ := exists_opposed (a.valueAt j) (b.valueAt j)
    rw [← hopposed, ← h φ hφ]
    exact le_deviation φ hj
  obtain ⟨φ, hφ, hfree⟩ := exists_unopposed a b
  intro j hj
  rcases deviation_attained a b φ with hzero | ⟨k, hk, hattained⟩
  · have hj' : ‖a.valueAt j‖ + ‖b.valueAt j‖ ≤ 0 := (hsum j hj).trans_eq ((h φ hφ).symm.trans hzero)
    have ha : a.valueAt j = 0 := norm_le_zero_iff.mp (by linarith [norm_nonneg (b.valueAt j)])
    exact ⟨j, hj, .inl ha, le_rfl⟩
  · rw [h φ hφ] at hattained
    have hle : ‖a.valueAt k * φ - b.valueAt k‖ ≤ ‖a.valueAt k‖ + ‖b.valueAt k‖ := by
      simpa only [norm_mul, hφ, mul_one] using norm_sub_le (a.valueAt k * φ) (b.valueAt k)
    have hopposed := hle.antisymm ((hsum k hk).trans_eq hattained)
    exact ⟨k, hk, hfree k hk hopposed, (hsum j hj).trans_eq (hattained.trans hopposed)⟩

/-- Factors of modulus one on either operator change nothing exactly if the factor between the operators can
be read off, or if no sum of the moduli of two entries in one place is larger than those in places where one
of the two vanishes. -/
theorem phase_invariant_iff {a b : Operator ℝ} (hrows : a.rows = b.rows) (hcols : a.cols = b.cols) :
    (∀ u : ℂ, ‖u‖ = 1 → (a.scale (.ofComplex u)).distanceUpToPhase? b = a.distanceUpToPhase? b ∧
      a.distanceUpToPhase? (b.scale (.ofComplex u)) = a.distanceUpToPhase? b) ↔
    Readable a b ∨ Outweighed a b := by
  constructor
  · intro h
    by_cases hread : Readable a b
    · exact .inl hread
    · refine .inr (outweighed_of_deviation_eq fun u hu => ?_)
      have hleft := (h u hu).1
      rw [distance_of_not_readable hread hrows hcols,
        distance_of_not_readable (mt (readable_scale_left hu).mp hread) hrows hcols,
        deviation_scale_left, mul_one] at hleft
      exact Option.some.inj hleft
  · rintro (hread | hout) u hu
    · exact hread.distance_scale hu hrows hcols
    · by_cases hread : Readable a b
      · exact hread.distance_scale hu hrows hcols
      · have hne : u ≠ 0 := ne_zero_of_norm_ne_zero (hu.trans_ne one_ne_zero)
        have hu' : ‖u⁻¹‖ = 1 := by rw [norm_inv, hu, inv_one]
        have hright : deviation a (b.scale (.ofComplex u)) 1 = deviation a b u⁻¹ := by
          rw [← deviation_scale_right hu u⁻¹, inv_mul_cancel₀ hne]
        rw [distance_of_not_readable hread hrows hcols,
          distance_of_not_readable (mt (readable_scale_left hu).mp hread) hrows hcols,
          distance_of_not_readable (mt (readable_scale_right hu).mp hread) hrows hcols,
          deviation_scale_left, mul_one, hright]
        exact ⟨congrArg some (hout.deviation_eq hu norm_one), congrArg some (hout.deviation_eq hu' norm_one)⟩

/-- No factor can be read off between these two, but in every place one of them vanishes. -/
theorem phase_invariant_between_sigmaZ_and_sigmaX :
    let z : Operator ℝ := sigmaZ
    let x : Operator ℝ := sigmaX
    z.rows = x.rows ∧ z.cols = x.cols ∧ ∀ u : ℂ, ‖u‖ = 1 →
      (z.scale (.ofComplex u)).distanceUpToPhase? x = z.distanceUpToPhase? x ∧
        z.distanceUpToPhase? (x.scale (.ofComplex u)) = z.distanceUpToPhase? x := by
  intro z x
  have hvanishes : ∀ j < 4, z.valueAt j = 0 ∨ x.valueAt j = 0 := by
    intro j hj
    interval_cases j <;> simp [valueAt, z, x, sigmaX, sigmaZ, two]
  exact ⟨rfl, rfl, (phase_invariant_iff (a := z) (b := x) rfl rfl).mpr
    (.inr fun j hj => ⟨j, hj, hvanishes j hj, le_rfl⟩)⟩

/-- The second operator is largest in its last place, where the first one vanishes. With the opposite sign the
first one is farther away. -/
theorem sign_changes_distance :
    let x : Operator ℝ := sigmaX
    let ones : Operator ℝ := two .one .one .one .one
    x.distanceUpToPhase? ones = some 1 ∧ (x.scale (.ofComplex (-1))).distanceUpToPhase? ones = some 2 := by
  intro x ones
  have hsize : ones.entries.size = 4 := rfl
  have hones : ∀ k < 4, ones.valueAt k = 1 := by
    intro k hk
    interval_cases k <;> rfl
  have hx : ∀ k < 4, x.valueAt k = if k = 1 ∨ k = 2 then 1 else 0 := by
    intro k hk
    interval_cases k <;> rfl
  have hpivot : ones.IsPivot 3 := by
    refine ⟨by omega, fun k hk => ?_, fun k hk hlast => by omega⟩
    rw [hones k hk, hones 3 (by omega)]
  have hread : ¬Readable x ones := by
    rintro ⟨k, hk, hne, -⟩
    obtain rfl := hpivot.unique hk
    exact hne rfl
  have hread' : ¬Readable (x.scale (.ofComplex (-1))) ones :=
    mt (readable_scale_left (by simp)).mp hread
  have hfirst : ‖x.valueAt 0 * 1 - ones.valueAt 0‖ = 1 := by
    simp [hx, hones]
  have hsecond : ‖x.valueAt 1 * (-1 * 1) - ones.valueAt 1‖ = 2 := by
    rw [hx 1 (by omega), hones 1 (by omega)]
    norm_num
  rw [distance_of_not_readable hread rfl rfl, distance_of_not_readable hread' rfl rfl, deviation_scale_left,
    Option.some.injEq, Option.some.injEq]
  constructor
  · refine le_antisymm (deviation_le_iff.mpr ⟨zero_le_one, fun k hk => ?_⟩) ?_
    · rw [hx k hk, hones k hk]
      split_ifs <;> simp
    · exact hfirst ▸ le_deviation 1 (by decide)
  · refine le_antisymm (deviation_le_iff.mpr ⟨zero_le_two, fun k hk => ?_⟩) ?_
    · rw [hx k hk, hones k hk]
      split_ifs <;> norm_num
    · exact hsecond ▸ le_deviation (-1 * 1) (by decide)

end Operator
end QubitPulse
