import QubitPulse.Proofs.Evolution.Analytical
import QubitPulse.Proofs.Raster.Expansion
import QubitPulse.Scalar.Double

/-!
# The column after the last segment

A timeline in steps may have one column more than segments. Evolutions and rasters go by the segments, which
are counted by breakpoints, and read the columns of these and no other. Whatever a last column holds, and
whether or not it is there, their results are the same.
-/
namespace QubitPulse

namespace Timeline

variable {α : Type}

/-- The second timeline has the times, the controls and the segments of the first. What either holds after
its last segment is left open. -/
structure SameSegments (t t' : Timeline α) : Prop where
  breakpoints : t'.breakpoints = t.breakpoints
  interpolation : t'.interpolation = t.interpolation
  rows : t'.numControls = t.numControls
  column : ∀ k < t.numSegments, t'.segmentCoeffs k = t.segmentCoeffs k

variable {t t' : Timeline α}

/-- Both have a column for a segment, or neither has. -/
theorem SameSegments.lt_cols_iff (h : t.SameSegments t') {k : ℕ} (hk : k < t.numSegments) :
    k < t'.coeffs.cols ↔ k < t.coeffs.cols := by
  rw [← isSome_segmentCoeffs, ← isSome_segmentCoeffs, h.column k hk]

variable [Scalar α]

theorem SameSegments.durations (h : t.SameSegments t') : t'.durations = t.durations := by
  rw [Timeline.durations, h.breakpoints, Timeline.durations]

theorem SameSegments.totalDuration (h : t.SameSegments t') : t'.totalDuration = t.totalDuration := by
  rw [Timeline.totalDuration, h.durations, Timeline.totalDuration]

theorem SameSegments.getD_eq (h : t.SameSegments t') {m k : ℕ} (hm : m < t.numControls)
    (hk : k < t.numSegments) : t'.coeffs.getD m k Scalar.zero = t.coeffs.getD m k Scalar.zero := by
  by_cases hcols : k < t.coeffs.cols
  · have hcolumns := h.column k hk
    rw [segmentCoeffs_eq hcols, segmentCoeffs_eq ((h.lt_cols_iff hk).mpr hcols), columnAt, h.rows,
      Option.some_inj] at hcolumns
    exact List.map_inj_left.mp hcolumns m (List.mem_range.mpr hm)
  · rw [Grid.getD, if_neg (mt (h.lt_cols_iff hk).mp hcols), Grid.getD, if_neg hcols]

/-- The timeline without its last column. -/
def dropLastColumn (t : Timeline α) : Timeline α :=
  { t with coeffs := Grid.ofFn t.coeffs.rows (t.coeffs.cols - 1) fun m k =>
      t.coeffs.getD m k Scalar.zero }

/-- The timeline with other coefficients in its last column. -/
def setLastColumn (t : Timeline α) (column : ℕ → α) : Timeline α :=
  { t with coeffs := Grid.ofFn t.coeffs.rows t.coeffs.cols fun m k =>
      if k + 1 = t.coeffs.cols then column m else t.coeffs.getD m k Scalar.zero }

theorem segmentCoeffs_dropLastColumn {k : ℕ} (hk : k + 1 < t.coeffs.cols) :
    t.dropLastColumn.segmentCoeffs k = t.segmentCoeffs k := by
  have hlt : k < t.coeffs.cols - 1 := by omega
  rw [segmentCoeffs_eq (Nat.lt_of_succ_lt hk)]
  exact Grid.column?_ofFn _ hlt

theorem segmentCoeffs_setLastColumn (column : ℕ → α) {k : ℕ} (hk : k < t.coeffs.cols) :
    (t.setLastColumn column).segmentCoeffs k =
      if k + 1 = t.coeffs.cols then some ((List.range t.numControls).map column)
      else t.segmentCoeffs k := by
  rw [segmentCoeffs_eq hk]
  refine (Grid.column?_ofFn _ hk).trans ?_
  split_ifs <;> rfl

theorem sameSegments_dropLastColumn (h : t.coeffs.cols = t.numSegments + 1) :
    t.SameSegments t.dropLastColumn where
  breakpoints := rfl
  interpolation := rfl
  rows := rfl
  column k hk := segmentCoeffs_dropLastColumn (by omega)

theorem sameSegments_setLastColumn (h : t.coeffs.cols = t.numSegments + 1) (column : ℕ → α) :
    t.SameSegments (t.setLastColumn column) where
  breakpoints := rfl
  interpolation := rfl
  rows := rfl
  column k hk := by
    rw [segmentCoeffs_setLastColumn column (by omega), if_neg (by omega)]

end Timeline

namespace AnalyticalEvolution

variable {α : Type} [Scalar α] {t t' : Timeline α}

theorem hamiltonian_sameSegments (h : t.SameSegments t') (controls : List (ControlOperator α))
    (initial : State α) {k : ℕ} (hk : k < t.numSegments) :
    hamiltonian ⟨controls, t', [], initial⟩ k = hamiltonian ⟨controls, t, [], initial⟩ k := by
  unfold hamiltonian EvolutionProblem.segmentHamiltonian?
  simp only [h.column k hk]

theorem propagatorsFrom_sameSegments (h : t.SameSegments t') (propagate : Propagation α)
    (controls : List (ControlOperator α)) (initial : State α) {k : ℕ} {dts : List α}
    (hk : k + dts.length ≤ t.numSegments) :
    propagatorsFrom propagate ⟨controls, t', [], initial⟩ k dts =
      propagatorsFrom propagate ⟨controls, t, [], initial⟩ k dts := by
  induction dts generalizing k with
  | nil => rfl
  | cons dt rest ih =>
    rw [List.length_cons] at hk
    rw [propagatorsFrom, hamiltonian_sameSegments h controls initial (by omega), ih (by omega),
      propagatorsFrom]

/-- An evolution goes by the segments, however a single one is propagated. -/
theorem computeWith_sameSegments (h : t.SameSegments t') (propagate : Propagation α)
    (controls : List (ControlOperator α)) (initial : State α) (phase : α) :
    computeWith propagate controls t' initial phase = computeWith propagate controls t initial phase := by
  have hall : 0 + t.durations.length ≤ t.numSegments := by
    rw [Timeline.length_durations, Nat.zero_add]
  unfold computeWith Timeline.checkControls
  rw [h.interpolation, h.rows, h.durations,
    propagatorsFrom_sameSegments h propagate controls initial hall]

end AnalyticalEvolution

namespace Raster

/-- Of a segment the cursor asks only whether it has a column. -/
theorem layOut_congr {columns columns' start k : ℕ} {counts : List ℕ} (covering : Array (Option ℕ))
    (h : ∀ i, k ≤ i → i < k + counts.length → (i < columns' ↔ i < columns)) :
    layOut columns' start k counts covering = layOut columns start k counts covering := by
  induction counts generalizing start k covering with
  | nil => rfl
  | cons count counts ih =>
    rw [List.length_cons] at h
    simp only [layOut, h k le_rfl (by omega)]
    exact ih _ fun i hi hlt => h i (by omega) (by omega)

theorem snd_lt_of_mem_strokesFrom {columns capacity start k : ℕ} {counts : List ℕ} {stroke : ℕ × ℕ}
    (h : stroke ∈ strokesFrom columns capacity start k counts) : stroke.2 < k + counts.length := by
  induction counts generalizing start k with
  | nil => simp [strokesFrom] at h
  | cons count counts ih =>
    rw [List.length_cons]
    rcases List.mem_append.mp h with hfirst | hrest
    · split_ifs at hfirst
      · obtain ⟨j, -, rfl⟩ := List.mem_map.mp hfirst
        exact Nat.lt_add_of_pos_right (Nat.succ_pos _)
      · simp at hfirst
    · have hlt := ih hrest
      omega

/-- A mark that was not there before was made by a stroke. -/
theorem mem_of_getElem?_foldl_mark {strokes : List (ℕ × ℕ)} {covering : Array (Option ℕ)} {j k : ℕ}
    (h : (strokes.foldl mark covering)[j]? = some (some k)) (hblank : covering[j]? ≠ some (some k)) :
    (j, k) ∈ strokes := by
  induction strokes generalizing covering with
  | nil => exact absurd h hblank
  | cons stroke strokes ih =>
    by_cases hnext : (mark covering stroke)[j]? = some (some k)
    · rw [mark, Array.getElem?_setIfInBounds] at hnext
      split_ifs at hnext with heq
      · obtain ⟨rfl, rfl⟩ : stroke.1 = j ∧ stroke.2 = k := ⟨heq, by simpa using hnext⟩
        exact List.mem_cons_self
      · exact absurd hnext hblank
    · exact List.mem_cons_of_mem _ (ih h hnext)

variable {α : Type} [Scalar α] {t t' : Timeline α}

/-- Samples are taken from segments between breakpoints only. -/
theorem lt_numSegments_of_layOut {step : α} {n j k : ℕ}
    (h : (layOut t.coeffs.cols 0 0 (counts t step) (Array.replicate n none)).1.getD j none = some k) :
    k < t.numSegments := by
  rw [layOut_fst, Array.getD_eq_getD_getElem?, Option.getD_eq_iff] at h
  obtain hmarked | ⟨-, hnone⟩ := h
  · have hmem := mem_of_getElem?_foldl_mark hmarked (by simp [Array.getElem?_replicate])
    simpa [length_counts] using snd_lt_of_mem_strokesFrom hmem
  · cases hnone

theorem layOut_sameSegments (h : t.SameSegments t') (step : α) (covering : Array (Option ℕ)) :
    layOut t'.coeffs.cols 0 0 (counts t' step) covering =
      layOut t.coeffs.cols 0 0 (counts t step) covering := by
  rw [show counts t' step = counts t step by rw [counts, h.durations, counts]]
  refine layOut_congr covering fun i _ hi => h.lt_cols_iff ?_
  rwa [Nat.zero_add, length_counts] at hi

theorem sampled_sameSegments (h : t.SameSegments t') (step : α) (n : ℕ) :
    sampled t' n (layOut t.coeffs.cols 0 0 (counts t step) (Array.replicate n none)).1 =
      sampled t n (layOut t.coeffs.cols 0 0 (counts t step) (Array.replicate n none)).1 := by
  unfold sampled
  rw [h.rows]
  refine Grid.ofFn_congr fun m hm j hj => ?_
  split
  · next k hk => exact h.getD_eq hm (lt_numSegments_of_layOut hk)
  · rfl

/-- A raster goes by the segments. -/
theorem rasterize_sameSegments (h : t.SameSegments t') (labels : List String) (step : α) :
    rasterize t' labels step = rasterize t labels step := by
  have hread (s : Timeline α) : rasterize s labels step =
      if !Scalar.isPositive step then .error (.invalidPulse (.rasterStep step))
      else if labels.length ≠ s.numControls then
        .error (.shapeMismatch (.labels s.numControls labels.length))
      else do
        Storage.reserve 1 [sampleCount s step]
        Storage.reserve 1 [s.numControls, sampleCount s step]
        let laidOut := layOut s.coeffs.cols 0 0 (counts s step)
          (Array.replicate (sampleCount s step) none)
        return ⟨spaced s.totalDuration (sampleCount s step),
          sampled s (sampleCount s step) laidOut.1, labels, step, laidOut.2⟩ := rfl
  have hcount : sampleCount t' step = sampleCount t step := by
    rw [sampleCount, h.totalDuration, sampleCount]
  rw [hread, hread, h.rows, h.totalDuration, hcount]
  simp only [layOut_sameSegments h, sampled_sameSegments h]

end Raster

namespace Timeline

variable {α : Type} [Scalar α] {t t' : Timeline α}

/-- A timeline with a column after its last segment, and the same without that column or with other
coefficients in it, have the same durations, evolve every state under all controls alike and give the same
rasters; where one of them is refused, so is the other, with the same error. -/
theorem trailing_column_has_no_effect (h : t.coeffs.cols = t.numSegments + 1)
    (hedit : t' = t.dropLastColumn ∨ ∃ column, t' = t.setLastColumn column) :
    (∀ controls initial phase, AnalyticalEvolution.compute controls t' initial phase =
      AnalyticalEvolution.compute controls t initial phase) ∧
    (∀ labels step, Raster.rasterize t' labels step = Raster.rasterize t labels step) ∧
    t'.durations = t.durations ∧ t'.totalDuration = t.totalDuration := by
  have hsame : t.SameSegments t' := by
    obtain rfl | ⟨column, rfl⟩ := hedit
    · exact sameSegments_dropLastColumn h
    · exact sameSegments_setLastColumn h column
  exact ⟨AnalyticalEvolution.computeWith_sameSegments hsame Operator.propagator,
    Raster.rasterize_sameSegments hsame, hsame.durations, hsame.totalDuration⟩

/-- Two segments of two controls; the last column is taken away, or is no number. -/
theorem trailing_column_has_no_effect_on_two_segments :
    let t : Timeline Float :=
      ⟨[0.0, 0.5, 2.0], ⟨2, 3, #[1.0, -1.0, 7.0, 0.0, 0.25, -3.0], rfl⟩, .step⟩
    t.validate = .ok () ∧ t.coeffs.cols = t.numSegments + 1 ∧
      ∀ t' ∈ [t.dropLastColumn, t.setLastColumn fun _ => 0.0 / 0.0],
        (∀ controls initial phase, AnalyticalEvolution.compute controls t' initial phase =
          AnalyticalEvolution.compute controls t initial phase) ∧
        (∀ labels step, Raster.rasterize t' labels step = Raster.rasterize t labels step) ∧
        t'.durations = t.durations ∧ t'.totalDuration = t.totalDuration := by
  intro t
  have hvalid : t.validate = .ok () := by decide +kernel
  refine ⟨hvalid, rfl, fun t' ht' => trailing_column_has_no_effect rfl ?_⟩
  rcases List.mem_pair.mp ht' with rfl | rfl
  · exact .inl rfl
  · exact .inr ⟨_, rfl⟩

end Timeline
end QubitPulse
