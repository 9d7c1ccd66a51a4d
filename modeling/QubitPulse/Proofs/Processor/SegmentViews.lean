import QubitPulse.Evolution.Problem
import QubitPulse.Processor.Basic
import QubitPulse.Proofs.Timeline.Segments
import QubitPulse.Scalar.Double

/-!
# Views of the segments of a timeline

The segments of a timeline are seen as durations, as columns of coefficients, as the rows of a grid, and as
Hamiltonians that a solver asks for one by one. The durations are counted by breakpoints and all the rest by
columns. So the views agree on a valid timeline exactly if it has one column a segment; with the trailing
column that steps may have and a spline needs, all but the durations count one segment too many.
-/
namespace QubitPulse

namespace EvolutionProblem

variable {α : Type} [Scalar α]

/-- The segments that a solver visits from one of them on, if it asks for Hamiltonians until it is given
none, at most so many times. -/
def walkFrom (p : EvolutionProblem α) (k : ℕ) : ℕ → List ℕ
  | 0 => []
  | most + 1 => if (p.segmentHamiltonian? k).isSome then k :: walkFrom p (k + 1) most else []

theorem isSome_segmentHamiltonian? (p : EvolutionProblem α) (k : ℕ) :
    (p.segmentHamiltonian? k).isSome = true ↔ k < p.timeline.coeffs.cols := by
  rw [segmentHamiltonian?, Option.isSome_map]
  exact Timeline.isSome_segmentCoeffs

theorem walkFrom_eq (p : EvolutionProblem α) (most k : ℕ) :
    p.walkFrom k most = List.range' k (min most (p.timeline.coeffs.cols - k)) := by
  induction most generalizing k with
  | zero => simp [walkFrom]
  | succ most ih =>
    rw [walkFrom, ih]
    split_ifs with hsome <;> rw [isSome_segmentHamiltonian?] at hsome
    · rw [show min (most + 1) (p.timeline.coeffs.cols - k) =
        min most (p.timeline.coeffs.cols - (k + 1)) + 1 by omega, List.range'_succ]
    · rw [show p.timeline.coeffs.cols - k = 0 by omega, Nat.min_zero, List.range'_zero]

end EvolutionProblem

namespace Timeline

variable {α : Type} [Scalar α]

/-- All views of the columns of a timeline have this number of segments, and a solver that walks until it is
given no Hamiltonian visits each of them once, in order, and no other. -/
structure ViewsHave (t : Timeline α) (n : ℕ) : Prop where
  coeffs : ∀ k, (t.segmentCoeffs k).isSome = true ↔ k < n
  bySegment : t.coeffsBySegment.rows = n
  opsAndCoeffs : ∀ {δ ρ : Type} [Device δ α ρ] (p : Processor δ α), p.timeline = some t →
    p.opsAndCoeffs.map (fun r => r.2.rows) = .ok n
  hamiltonians : ∀ p : EvolutionProblem α, p.timeline = t →
    ∀ k, (p.segmentHamiltonian? k).isSome = true ↔ k < n
  walk : ∀ p : EvolutionProblem α, p.timeline = t → ∀ most, p.walkFrom 0 most = List.range (min most n)

theorem ViewsHave.unique {t : Timeline α} {n m : ℕ} (h : t.ViewsHave n) (h' : t.ViewsHave m) : n = m :=
  h.bySegment.symm.trans h'.bySegment

/-- The views have one segment a column, whether or not the timeline is valid. -/
theorem viewsHave_cols (t : Timeline α) : t.ViewsHave t.coeffs.cols where
  coeffs _ := isSome_segmentCoeffs
  bySegment := rfl
  opsAndCoeffs p hp := by
    unfold Processor.opsAndCoeffs Processor.storedTimeline
    rw [hp]
    rfl
  hamiltonians p hp k := hp ▸ p.isSome_segmentHamiltonian? k
  walk p hp most := by rw [p.walkFrom_eq, hp, Nat.sub_zero, List.range_eq_range']

/-- The views of a valid timeline agree with its durations exactly if it is one in steps with one column
fewer than breakpoints. Any other valid timeline has one column more, and all views but the durations count
it as a segment. -/
theorem segment_views_agree_iff {t : Timeline α} (h : t.validate = .ok ()) :
    t.durations.length = t.numSegments ∧
    (t.ViewsHave t.numSegments ↔
      t.interpolation = .step ∧ t.coeffs.cols + 1 = t.breakpoints.length) ∧
    (¬t.ViewsHave t.numSegments → t.ViewsHave (t.numSegments + 1)) := by
  have hviews := t.viewsHave_cols
  have hsegments : t.numSegments + 1 = t.breakpoints.length :=
    Nat.succ_pred_eq_of_pos (List.length_pos_iff.mpr (accepts_of_validate h).1)
  rcases cols_of_validate h with ⟨hcols, hsteps⟩ | hcols
  · rw [hcols] at hviews
    have hfewer : t.coeffs.cols + 1 = t.breakpoints.length := by omega
    exact ⟨t.length_durations, ⟨fun _ => ⟨hsteps, hfewer⟩, fun _ => hviews⟩,
      fun hnot => absurd hviews hnot⟩
  · rw [hcols] at hviews
    have hnot : ¬t.ViewsHave t.numSegments := fun hfewer => by
      have := hfewer.unique hviews
      omega
    exact ⟨t.length_durations, ⟨fun hfewer => absurd hfewer hnot, fun ⟨_, hfewer⟩ => by omega⟩,
      fun _ => hviews⟩

/-- Two segments of one control, without a trailing column. -/
theorem segment_views_agree_on_two_segments :
    let t : Timeline Float := ⟨[0.0, 0.5, 2.0], ⟨1, 2, #[1.0, -1.0], rfl⟩, .step⟩
    t.validate = .ok () ∧ t.durations.length = 2 ∧ t.ViewsHave 2 := by
  intro t
  have hvalid : t.validate = .ok () := by decide +kernel
  obtain ⟨hdurations, hagree, -⟩ := segment_views_agree_iff hvalid
  exact ⟨hvalid, hdurations, hagree.mpr ⟨rfl, rfl⟩⟩

/-- One segment with a trailing column, and one segment of a spline: both timelines are valid, last one unit
of time, and have coefficients and a Hamiltonian for a second segment. -/
theorem trailing_column_counts_as_segment :
    let steps : Timeline Float := ⟨[0.0, 1.0], ⟨1, 2, #[0.5, 0.25], rfl⟩, .step⟩
    let spline : Timeline Float := { steps with interpolation := .cubic }
    ∀ t ∈ [steps, spline], t.validate = .ok () ∧ t.numSegments = 1 ∧ t.durations = [1.0] ∧
      t.segmentCoeffs 1 = some [0.25] ∧ t.coeffsBySegment.rows = 2 ∧
      (∀ controls ops initial,
        (EvolutionProblem.segmentHamiltonian? ⟨controls, t, ops, initial⟩ 1).isSome = true) ∧
      ¬t.ViewsHave t.numSegments := by
  intro steps spline t ht
  have hfacts : ∀ t ∈ [steps, spline], t.validate = .ok () ∧ t.durations = [1.0] ∧
      t.segmentCoeffs 1 = some [0.25] := by
    decide +kernel
  obtain ⟨hvalid, hdurations, hcoeffs⟩ := hfacts t ht
  have hsizes : t.numSegments = 1 ∧ t.coeffs.cols = 2 := by
    rcases List.mem_pair.mp ht with rfl | rfl <;> exact ⟨rfl, rfl⟩
  obtain ⟨hsegments, hcols⟩ := hsizes
  have hviews := t.viewsHave_cols
  rw [hcols] at hviews
  refine ⟨hvalid, hsegments, hdurations, hcoeffs, hviews.bySegment, fun controls ops initial => ?_, ?_⟩
  · exact (hviews.hamiltonians ⟨controls, t, ops, initial⟩ rfl 1).mpr one_lt_two
  · intro hone
    rw [hsegments] at hone
    exact absurd (hone.unique hviews) (by decide)

end Timeline
end QubitPulse
