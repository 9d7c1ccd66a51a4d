import QubitPulse.Proofs.Grid
import QubitPulse.Proofs.Timeline.Segments
import QubitPulse.Raster

/-!
# Rasters as expanded segments

A raster lists the coefficients of every segment as often as whole steps fit into it, one segment after the
other, and is cut at its length. What comes after the last segment stays zero. The cursor that lays the
segments out writes one sample after the other and none of them twice.
-/
namespace QubitPulse

/-- In a list of runs of these lengths the position is in this run: it comes after the runs before it. -/
def InRun (counts : List ℕ) (k j : ℕ) : Prop :=
  (counts.take k).sum ≤ j ∧ j < (counts.take (k + 1)).sum

namespace InRun

variable {counts : List ℕ} {count k k' j : ℕ}

theorem cons_zero : InRun (count :: counts) 0 j ↔ j < count := by
  simp [InRun]

theorem cons_succ : InRun (count :: counts) (k + 1) j ↔ count ≤ j ∧ InRun counts k (j - count) := by
  simp only [InRun, List.take_succ_cons, List.sum_cons]
  omega

theorem not_nil : ¬InRun [] k j := by
  simp [InRun]

/-- A position is in one run only. -/
theorem unique (h : InRun counts k j) (h' : InRun counts k' j) : k = k' := by
  induction counts generalizing k k' j with
  | nil => exact absurd h not_nil
  | cons count counts ih =>
    cases k <;> cases k' <;> simp only [cons_zero, cons_succ] at h h'
    · rfl
    · omega
    · omega
    · exact congrArg (· + 1) (ih h.2 h'.2)

theorem lt_length (h : InRun counts k j) : k < counts.length := by
  induction counts generalizing k j with
  | nil => exact absurd h not_nil
  | cons count counts ih =>
    cases k with
    | zero => exact Nat.succ_pos _
    | succ k => exact Nat.succ_lt_succ (ih (cons_succ.mp h).2)

theorem iff_eq (h : InRun counts k j) : InRun counts k' j ↔ k' = k :=
  ⟨fun h' => h'.unique h, fun heq => heq ▸ h⟩

end InRun

namespace Raster

/-! ## The cursor -/

/-- The samples that the cursor writes, in the order of writing, each with the segment it is given. -/
def strokesFrom (columns capacity : ℕ) : (start k : ℕ) → List ℕ → List (ℕ × ℕ)
  | _, _, [] => []
  | start, k, count :: rest =>
    let next := stop capacity start count
    (if k < columns then (List.range' start (next - start)).map fun j => (j, k) else []) ++
      strokesFrom columns capacity next (k + 1) rest

/-- Marks a sample with the segment that it is given. -/
def mark (covering : Array (Option ℕ)) (stroke : ℕ × ℕ) : Array (Option ℕ) :=
  covering.setIfInBounds stroke.1 (some stroke.2)

theorem size_foldl_mark (strokes : List (ℕ × ℕ)) (covering : Array (Option ℕ)) :
    (strokes.foldl mark covering).size = covering.size := by
  induction strokes generalizing covering with
  | nil => rfl
  | cons stroke strokes ih => rw [List.foldl_cons, ih, mark, Array.size_setIfInBounds]

theorem fill_eq_foldl (k start count : ℕ) (covering : Array (Option ℕ)) :
    fill (some k) start count covering =
      ((List.range' start count).map fun j => (j, k)).foldl mark covering := by
  induction count generalizing start covering with
  | zero => rfl
  | succ count ih => exact ih (start + 1) _

/-- Laying segments out is writing the samples of the cursor one by one. -/
theorem layOut_fst (columns start k : ℕ) (counts : List ℕ) (covering : Array (Option ℕ)) :
    (layOut columns start k counts covering).1 =
      (strokesFrom columns covering.size start k counts).foldl mark covering := by
  induction counts generalizing start k covering with
  | nil => rfl
  | cons count counts ih =>
    rw [layOut, strokesFrom, ih]
    split_ifs
    · rw [List.foldl_append, fill_eq_foldl, size_foldl_mark]
    · rfl

/-- No segment is so long that its end leaves the words. -/
def InWords (capacity : ℕ) (counts : List ℕ) : Prop :=
  ∀ count ∈ counts, capacity + count < Word.size

theorem stop_eq {capacity start count : ℕ} (hstart : start ≤ capacity)
    (h : capacity + count < Word.size) : stop capacity start count = min (start + count) capacity := by
  rw [stop, Word.wrap_of_lt (by omega)]

theorem layOut_snd {columns start k : ℕ} {counts : List ℕ} {covering : Array (Option ℕ)}
    (hstart : start ≤ covering.size) (h : InWords covering.size counts) :
    (layOut columns start k counts covering).2 = min (start + counts.sum) covering.size := by
  induction counts generalizing start k covering with
  | nil => simpa [layOut] using hstart
  | cons count counts ih =>
    obtain ⟨hcount, hrest⟩ := List.forall_mem_cons.mp h
    have hsize : (if k < columns then fill (some k) start
        (stop covering.size start count - start) covering else covering).size = covering.size := by
      split_ifs <;> simp
    rw [layOut, ih (by rw [hsize, stop_eq hstart hcount]; exact min_le_right _ _) (by rwa [hsize]),
      hsize, stop_eq hstart hcount, List.sum_cons]
    omega

/-- The cursor goes forward sample by sample, up to the end of the last segment. -/
theorem strokesFrom_fst {columns capacity start k : ℕ} {counts : List ℕ} (hstart : start ≤ capacity)
    (h : InWords capacity counts) (hcolumns : k + counts.length ≤ columns) :
    (strokesFrom columns capacity start k counts).map Prod.fst =
      List.range' start (min (start + counts.sum) capacity - start) := by
  induction counts generalizing start k with
  | nil => simp [strokesFrom]
  | cons count counts ih =>
    obtain ⟨hcount, hrest⟩ := List.forall_mem_cons.mp h
    rw [List.length_cons] at hcolumns
    obtain ⟨length, hnext⟩ : ∃ length, min (start + count) capacity = start + length :=
      ⟨min (start + count) capacity - start, by omega⟩
    have hwritten : ((List.range' start length).map fun j => (j, k)).map Prod.fst =
        List.range' start length := by
      simp [Function.comp_def]
    rw [strokesFrom, stop_eq hstart hcount, if_pos (by omega), hnext, Nat.add_sub_cancel_left,
      List.map_append, hwritten, ih (by omega) hrest (by omega), List.range'_append_1, List.sum_cons]
    congr 1
    omega

/-- Every sample is given the segment in whose run it is. -/
theorem inRun_of_mem_strokesFrom {columns capacity start k : ℕ} {counts : List ℕ}
    (hstart : start ≤ capacity) (h : InWords capacity counts) {stroke : ℕ × ℕ}
    (hmem : stroke ∈ strokesFrom columns capacity start k counts) :
    start ≤ stroke.1 ∧ stroke.1 < capacity ∧ k ≤ stroke.2 ∧
      InRun counts (stroke.2 - k) (stroke.1 - start) := by
  induction counts generalizing start k with
  | nil => simp [strokesFrom] at hmem
  | cons count counts ih =>
    obtain ⟨hcount, hrest⟩ := List.forall_mem_cons.mp h
    rw [strokesFrom, stop_eq hstart hcount, List.mem_append] at hmem
    rcases hmem with hmem | hmem
    · split_ifs at hmem
      · obtain ⟨j, hj, rfl⟩ := List.mem_map.mp hmem
        rw [List.mem_range'_1] at hj
        refine ⟨hj.1, by omega, le_rfl, ?_⟩
        rw [Nat.sub_self, InRun.cons_zero]
        omega
      · simp at hmem
    · obtain ⟨hfirst, hlast, hlater, hrun⟩ := ih (min_le_right _ _) hrest hmem
      -- A segment that is cut leaves no sample to those after it.
      have hnext : min (start + count) capacity = start + count := by omega
      rw [hnext] at hfirst hrun
      refine ⟨by omega, hlast, by omega, ?_⟩
      rw [show stroke.2 - k = stroke.2 - (k + 1) + 1 by omega, InRun.cons_succ, Nat.sub_sub]
      exact ⟨by omega, hrun⟩

theorem getElem?_foldl_mark_of_not_mem {strokes : List (ℕ × ℕ)} {j : ℕ}
    (h : j ∉ strokes.map Prod.fst) (covering : Array (Option ℕ)) :
    (strokes.foldl mark covering)[j]? = covering[j]? := by
  induction strokes generalizing covering with
  | nil => rfl
  | cons stroke strokes ih =>
    rw [List.map_cons, List.mem_cons, not_or] at h
    rw [List.foldl_cons, ih h.2, mark, Array.getElem?_setIfInBounds_ne (Ne.symm h.1)]

/-- A sample that is marked once has the mark it was given. -/
theorem getElem?_foldl_mark {strokes : List (ℕ × ℕ)} (honce : (strokes.map Prod.fst).Nodup) {j k : ℕ}
    (hmem : (j, k) ∈ strokes) {covering : Array (Option ℕ)} (hj : j < covering.size) :
    (strokes.foldl mark covering)[j]? = some (some k) := by
  induction strokes generalizing covering with
  | nil => simp at hmem
  | cons stroke strokes ih =>
    rw [List.map_cons, List.nodup_cons] at honce
    rw [List.foldl_cons]
    rcases List.mem_cons.mp hmem with rfl | hmem
    · rw [getElem?_foldl_mark_of_not_mem honce.1, mark, Array.getElem?_setIfInBounds_self_of_lt hj]
    · exact ih honce.2 hmem (by simpa [mark] using hj)

/-! ## The raster -/

variable {α : Type} [Scalar α]

/-- The number of samples. -/
def sampleCount (t : Timeline α) (step : α) : ℕ := Scalar.ceilNat (t.totalDuration / step)

/-- Whole steps that fit into each segment. -/
def counts (t : Timeline α) (step : α) : List ℕ := t.durations.map fun d => Scalar.floorNat (d / step)

/-- The times and the samples can be stored. -/
def HasRoom (t : Timeline α) (step : α) : Prop :=
  Storage.fits 1 [sampleCount t step] = true ∧
    Storage.fits 1 [t.numControls, sampleCount t step] = true

theorem sampleCount_lt_of_hasRoom {t : Timeline α} {step : α} (h : HasRoom t step) :
    sampleCount t step < 2 ^ 60 := by
  obtain ⟨-, hbytes⟩ := Bool.and_eq_true_iff.mp h.1
  have hfits := of_decide_eq_true hbytes
  have hmost : Word.mostBytes = 2 ^ 63 - 1 := rfl
  simp only [List.foldl] at hfits
  omega

theorem inWords_of_hasRoom {t : Timeline α} {step : α} (h : HasRoom t step)
    (hcounts : ∀ count ∈ counts t step, count < 2 ^ 61) : InWords (sampleCount t step) (counts t step) := by
  intro count hcount
  have hn := sampleCount_lt_of_hasRoom h
  have hlt := hcounts count hcount
  have hsize : Word.size = 2 ^ 64 := rfl
  omega

/-- The samples that are written, in the order of writing, each with its segment. -/
def strokes (t : Timeline α) (step : α) : List (ℕ × ℕ) :=
  strokesFrom t.coeffs.cols (sampleCount t step) 0 0 (counts t step)

/-- Position of the cursor after the first segments are laid out. -/
def cursor (t : Timeline α) (step : α) (k : ℕ) : ℕ :=
  (layOut t.coeffs.cols 0 0 ((counts t step).take k) (Array.replicate (sampleCount t step) none)).2

/-- Amplitudes of samples that are marked with the segments they are taken from. -/
def sampled (t : Timeline α) (n : ℕ) (covering : Array (Option ℕ)) : Grid α :=
  Grid.ofFn t.numControls n fun m j =>
    match covering.getD j none with
    | some k => t.coeffs.getD m k Scalar.zero
    | none => Scalar.zero

/-- Writes the coefficients of a segment into a column of the amplitudes. -/
def paint (t : Timeline α) (amplitudes : Grid α) (stroke : ℕ × ℕ) : Grid α :=
  Grid.ofFn amplitudes.rows amplitudes.cols fun m j =>
    if j = stroke.1 then t.coeffs.getD m stroke.2 Scalar.zero else amplitudes.getD m j Scalar.zero

/-- What is sampled where there is room for it. -/
def ofTimeline (t : Timeline α) (labels : List String) (step : α) : Raster α where
  times := spaced t.totalDuration (sampleCount t step)
  amplitudes := sampled t (sampleCount t step)
    ((strokes t step).foldl mark (Array.replicate (sampleCount t step) none))
  labels := labels
  step := step
  filled := (layOut t.coeffs.cols 0 0 (counts t step) (Array.replicate (sampleCount t step) none)).2

theorem layOut_blank (t : Timeline α) (step : α) :
    (layOut t.coeffs.cols 0 0 (counts t step) (Array.replicate (sampleCount t step) none)).1 =
      (strokes t step).foldl mark (Array.replicate (sampleCount t step) none) := by
  rw [layOut_fst, Array.size_replicate, strokes]

theorem rasterize_eq {t : Timeline α} {labels : List String} {step : α}
    (hlabels : labels.length = t.numControls) (hstep : Scalar.isPositive step = true) :
    (HasRoom t step → rasterize t labels step = .ok (ofTimeline t labels step)) ∧
      (¬HasRoom t step → rasterize t labels step = .error .tooLarge) := by
  have hchecked : rasterize t labels step = (do
      Storage.reserve 1 [sampleCount t step]
      Storage.reserve 1 [t.numControls, sampleCount t step]
      return ofTimeline t labels step) := by
    unfold rasterize
    rw [hstep, if_neg (by simp), if_neg (not_not.mpr hlabels)]
    simp only [ofTimeline, ← layOut_blank]
    rfl
  rw [hchecked]
  unfold HasRoom Storage.reserve
  split_ifs <;> simp_all [pure, Except.pure, bind, Except.bind]

theorem sampled_mark (t : Timeline α) {n : ℕ} {covering : Array (Option ℕ)} (hsize : covering.size = n)
    (stroke : ℕ × ℕ) : sampled t n (mark covering stroke) = paint t (sampled t n covering) stroke := by
  refine Grid.ofFn_congr fun m hm j hj => ?_
  rw [sampled, Grid.getD_ofFn _ _ hm hj, mark, Array.getD_eq_getD_getElem?, Array.getElem?_setIfInBounds]
  by_cases h : stroke.1 = j
  · have hin : stroke.1 < covering.size := by omega
    simp [h, hsize, hj]
  · rw [if_neg h, if_neg (Ne.symm h), ← Array.getD_eq_getD_getElem?]

/-- Marking samples and then reading off their amplitudes is writing the amplitudes sample by sample. -/
theorem sampled_foldl_mark (t : Timeline α) {n : ℕ} {covering : Array (Option ℕ)}
    (hsize : covering.size = n) (strokes : List (ℕ × ℕ)) :
    sampled t n (strokes.foldl mark covering) = strokes.foldl (paint t) (sampled t n covering) := by
  induction strokes generalizing covering with
  | nil => rfl
  | cons stroke strokes ih =>
    rw [List.foldl_cons, List.foldl_cons, ih (by simpa [mark] using hsize), sampled_mark t hsize]

/-- Amplitudes before the first sample is written. -/
def blank (rows cols : ℕ) : Grid α := Grid.ofFn rows cols fun _ _ => Scalar.zero

theorem sampled_unmarked (t : Timeline α) (n : ℕ) :
    sampled t n (Array.replicate n none) = blank t.numControls n :=
  Grid.ofFn_congr fun m _ j hj => by simp [hj]

/-- The columns of the amplitudes, by the marks of their samples. -/
theorem column?_sampled (t : Timeline α) {n j : ℕ} (hj : j < n) (covering : Array (Option ℕ)) :
    (sampled t n covering).column? j = match covering.getD j none with
      | some k => some ((List.range t.numControls).map fun m => t.coeffs.getD m k Scalar.zero)
      | none => some (List.replicate t.numControls Scalar.zero) := by
  rw [sampled, Grid.column?_ofFn _ hj]
  cases covering.getD j none <;> simp

/-- A raster is the expansion of the segments of a timeline into runs of samples, cut at its length. -/
structure Expands (r : Raster α) (t : Timeline α) (labels : List String) (step : α) : Prop where
  size : r.size = sampleCount t step
  rows : r.amplitudes.rows = t.numControls
  cols : r.amplitudes.cols = sampleCount t step
  filled : r.filled = min (sampleCount t step) (counts t step).sum
  covered : ∀ j < r.filled, ∃ k < t.numSegments,
    (∀ k', InRun (counts t step) k' j ↔ k' = k) ∧ r.amplitudes.column? j = t.segmentCoeffs k
  uncovered : ∀ j < r.size, r.filled ≤ j →
    r.amplitudes.column? j = some (List.replicate t.numControls Scalar.zero)
  control : ∀ label, (label ∉ labels → r.control? label = none) ∧
    ∀ m, labels[m]? = some label → (∀ i < m, labels[i]? ≠ some label) →
      r.control? label = some ((List.range r.size).map fun j => r.amplitudes.getD m j Scalar.zero)
  written : r.amplitudes = (strokes t step).foldl (paint t) (blank t.numControls r.size)
  once : (strokes t step).map Prod.fst = List.range r.filled

variable {t : Timeline α} {labels : List String} {step : α}

theorem length_counts (t : Timeline α) (step : α) : (counts t step).length = t.numSegments := by
  rw [counts, List.length_map, Timeline.length_durations]

theorem size_ofTimeline (t : Timeline α) (labels : List String) (step : α) :
    (ofTimeline t labels step).size = sampleCount t step := by
  simp [ofTimeline, size, spaced]

theorem cursor_eq (h : InWords (sampleCount t step) (counts t step)) (k : ℕ) :
    cursor t step k = min ((counts t step).take k).sum (sampleCount t step) := by
  have hwords : InWords (Array.replicate (sampleCount t step) (none : Option ℕ)).size
      ((counts t step).take k) := by
    rw [Array.size_replicate]
    exact fun count hcount => h count (List.mem_of_mem_take hcount)
  rw [cursor, layOut_snd (Nat.zero_le _) hwords, Array.size_replicate, Nat.zero_add]

theorem filled_ofTimeline (h : InWords (sampleCount t step) (counts t step)) :
    (ofTimeline t labels step).filled = min (sampleCount t step) (counts t step).sum := by
  have hend := cursor_eq h (counts t step).length
  rw [cursor, List.take_length] at hend
  rw [min_comm]
  exact hend

theorem numSegments_le_cols (hvalid : t.validate = .ok ()) : t.numSegments ≤ t.coeffs.cols := by
  rcases Timeline.cols_of_validate hvalid with ⟨h, -⟩ | h <;> omega

theorem strokes_fst (hvalid : t.validate = .ok ()) (h : InWords (sampleCount t step) (counts t step)) :
    (strokes t step).map Prod.fst = List.range (min (sampleCount t step) (counts t step).sum) := by
  have hcolumns := numSegments_le_cols hvalid
  rw [strokes, strokesFrom_fst (Nat.zero_le _) h (by rw [length_counts]; omega), List.range_eq_range']
  congr 1
  omega

/-- Below the number of filled samples each is marked with the segment in whose run it is. -/
theorem marked (hvalid : t.validate = .ok ()) (h : InWords (sampleCount t step) (counts t step)) {j : ℕ}
    (hj : j < min (sampleCount t step) (counts t step).sum) :
    ∃ k, InRun (counts t step) k j ∧
      ((strokes t step).foldl mark (Array.replicate (sampleCount t step) none))[j]? = some (some k) := by
  have hfst := strokes_fst hvalid h
  obtain ⟨⟨_, k⟩, hmem, rfl⟩ := List.mem_map.mp (hfst ▸ List.mem_range.mpr hj)
  refine ⟨k, ?_, getElem?_foldl_mark (hfst ▸ List.nodup_range) hmem (by simp; omega)⟩
  obtain ⟨-, -, -, hrun⟩ := inRun_of_mem_strokesFrom (Nat.zero_le _) h hmem
  exact hrun

theorem unmarked (hvalid : t.validate = .ok ()) (h : InWords (sampleCount t step) (counts t step)) {j : ℕ}
    (hj : min (sampleCount t step) (counts t step).sum ≤ j) :
    ((strokes t step).foldl mark (Array.replicate (sampleCount t step) none)).getD j none = none := by
  rw [Array.getD_eq_getD_getElem?, getElem?_foldl_mark_of_not_mem]
  · cases Nat.lt_or_ge j (sampleCount t step) <;> simp_all
  · rw [strokes_fst hvalid h, List.mem_range]
    exact Nat.not_lt.mpr hj

theorem control?_ofTimeline (hlabels : labels.length = t.numControls) {label : String} {m : ℕ}
    (hm : labels[m]? = some label) (hfirst : ∀ i < m, labels[i]? ≠ some label) :
    (ofTimeline t labels step).control? label = some ((List.range (sampleCount t step)).map fun j =>
      (ofTimeline t labels step).amplitudes.getD m j Scalar.zero) := by
  obtain ⟨hlt, hget⟩ := List.getElem?_eq_some_iff.mp hm
  have hindex : labels.findIdx? (· = label) = some m := by
    refine List.findIdx?_eq_some_iff_getElem.mpr ⟨hlt, by simpa using hget, fun i hi => ?_⟩
    have hne := hfirst i hi
    rw [List.getElem?_eq_getElem (hi.trans hlt)] at hne
    simpa using hne
  have hrow : m < (ofTimeline t labels step).amplitudes.rows := hlt.trans_eq hlabels
  rw [control?, show (ofTimeline t labels step).labels = labels from rfl, hindex, Option.map_some,
    Grid.row_eq hrow Scalar.zero]
  rfl

theorem expands_ofTimeline (hvalid : t.validate = .ok ()) (hlabels : labels.length = t.numControls)
    (h : InWords (sampleCount t step) (counts t step)) :
    (ofTimeline t labels step).Expands t labels step where
  size := size_ofTimeline t labels step
  rows := rfl
  cols := rfl
  filled := filled_ofTimeline h
  covered j hj := by
    rw [filled_ofTimeline h] at hj
    obtain ⟨k, hrun, hmark⟩ := marked hvalid h hj
    have hk : k < t.numSegments := length_counts t step ▸ hrun.lt_length
    have hcol : k < t.coeffs.cols := hk.trans_le (numSegments_le_cols hvalid)
    refine ⟨k, hk, fun k' => hrun.iff_eq, ?_⟩
    rw [Timeline.segmentCoeffs, Grid.column?_eq hcol Scalar.zero, ofTimeline, column?_sampled t (by omega),
      Array.getD_eq_getD_getElem?, hmark]
    rfl
  uncovered j hj hfilled := by
    rw [size_ofTimeline] at hj
    rw [filled_ofTimeline h] at hfilled
    rw [ofTimeline, column?_sampled t hj, unmarked hvalid h hfilled]
  control label := by
    refine ⟨fun habsent => ?_, fun m hm hfirst => ?_⟩
    · have hnone : labels.findIdx? (· = label) = none := by
        rw [List.findIdx?_eq_none_iff]
        exact fun other hmem => decide_eq_false fun heq => habsent (heq ▸ hmem)
      rw [control?, show (ofTimeline t labels step).labels = labels from rfl, hnone, Option.map_none]
    · rw [size_ofTimeline]
      exact control?_ofTimeline hlabels hm hfirst
  written := by
    rw [size_ofTimeline, ← sampled_unmarked, ← sampled_foldl_mark t Array.size_replicate, ofTimeline]
  once := by rw [filled_ofTimeline h, strokes_fst hvalid h]

end Raster
end QubitPulse
