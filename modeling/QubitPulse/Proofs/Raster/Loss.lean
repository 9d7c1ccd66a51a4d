import Mathlib.Algebra.Order.BigOperators.Group.List
import Mathlib.Algebra.Order.Floor.Semiring
import QubitPulse.Proofs.Exact.Scalar
import QubitPulse.Proofs.Raster.Expansion

/-!
# What a raster loses

In exact arithmetic a segment loses less than one step, so that all segments together lose at most one sample
each and never need more samples than there are. Where every duration is a whole multiple of the step nothing
is lost: the samples stand wider apart than the step, but by less than one step over the whole timeline, and so
every sample but the last falls into the segment it is taken from.
-/
namespace QubitPulse

namespace Timeline

/-! ## Durations -/

theorem differences_nonneg {xs : List ℝ} (h : decreases xs = false) : ∀ d ∈ differences xs, 0 ≤ d := by
  fun_induction differences xs with
  | case1 a b rest ih =>
    rw [decreases, Bool.or_eq_false_iff, Scalar.lt_real, decide_eq_false_iff_not, not_lt] at h
    exact List.forall_mem_cons.mpr ⟨sub_nonneg.mpr h.1, ih h.2⟩
  | case2 xs hshort => exact List.forall_mem_nil _

/-- Durations add up to the way from the first breakpoint to another. -/
theorem sum_take_differences {xs : List ℝ} {first a : ℝ} {k : ℕ} (hfirst : xs.head? = some first)
    (ha : xs[k]? = some a) : ((differences xs).take k).sum = a - first := by
  induction xs generalizing first k with
  | nil => simp at hfirst
  | cons x xs ih =>
    obtain rfl : x = first := by simpa using hfirst
    cases k with
    | zero =>
      obtain rfl : x = a := by simpa using ha
      simp
    | succ k =>
      cases xs with
      | nil => simp at ha
      | cons y rest =>
        rw [differences, List.take_succ_cons, List.sum_cons, ih rfl (by simpa using ha)]
        exact sub_add_sub_cancel' y x a

/-- The segment in force at a time that is counted from the first breakpoint. -/
def InForce (t : Timeline ℝ) (k : ℕ) (time : ℝ) : Prop :=
  ∃ first a b, t.breakpoints.head? = some first ∧ t.breakpoints[k]? = some a ∧
    t.breakpoints[k + 1]? = some b ∧ a - first ≤ time ∧ time < b - first

/-- The last segment that takes time. -/
def LastPositive (t : Timeline ℝ) (k : ℕ) : Prop :=
  (∃ d, t.durations[k]? = some d ∧ 0 < d) ∧ ∀ k' > k, ∀ d, t.durations[k']? = some d → ¬0 < d

variable {t : Timeline ℝ}

theorem inForce_iff {k : ℕ} {time : ℝ} : t.InForce k time ↔
    k < t.numSegments ∧ (t.durations.take k).sum ≤ time ∧ time < (t.durations.take (k + 1)).sum := by
  unfold InForce numSegments durations
  constructor
  · rintro ⟨first, a, b, hfirst, ha, hb, hle, hlt⟩
    obtain ⟨hk, -⟩ := List.getElem?_eq_some_iff.mp hb
    rw [sum_take_differences hfirst ha, sum_take_differences hfirst hb]
    exact ⟨by omega, hle, hlt⟩
  · rintro ⟨hk, hle, hlt⟩
    have hfirst : t.breakpoints.head? = some t.breakpoints[0] := by
      rw [List.head?_eq_getElem?, List.getElem?_eq_getElem]
    have ha := List.getElem?_eq_getElem (l := t.breakpoints) (i := k) (by omega)
    have hb := List.getElem?_eq_getElem (l := t.breakpoints) (i := k + 1) (by omega)
    rw [sum_take_differences hfirst ha] at hle
    rw [sum_take_differences hfirst hb] at hlt
    exact ⟨_, _, _, hfirst, ha, hb, hle, hlt⟩

end Timeline

namespace Raster

/-! ## Whole steps in real durations -/

/-- Whole steps do not take longer than the durations they are fitted into. -/
theorem sum_floor_mul_le {ds : List ℝ} {step : ℝ} (hds : ∀ d ∈ ds, 0 ≤ d) (hstep : 0 < step) :
    ((ds.map fun d => ⌊d / step⌋₊).sum : ℕ) * step ≤ ds.sum := by
  induction ds with
  | nil => simp
  | cons d ds ih =>
    obtain ⟨hd, hds⟩ := List.forall_mem_cons.mp hds
    have hfloor : (⌊d / step⌋₊ : ℝ) * step ≤ d :=
      (le_div_iff₀ hstep).mp (Nat.floor_le (div_nonneg hd hstep.le))
    rw [List.map_cons, List.sum_cons, List.sum_cons, Nat.cast_add, add_mul]
    exact add_le_add hfloor (ih hds)

/-- With one step more for every duration they cover all of them. -/
theorem sum_le_floor_mul (ds : List ℝ) {step : ℝ} (hstep : 0 < step) :
    ds.sum ≤ ((ds.map fun d => ⌊d / step⌋₊).sum + ds.length : ℕ) * step := by
  induction ds with
  | nil => simp
  | cons d ds ih =>
    have hfloor : d ≤ (⌊d / step⌋₊ + 1) * step :=
      ((div_lt_iff₀ hstep).mp (Nat.lt_floor_add_one (d / step))).le
    rw [List.map_cons, List.sum_cons, List.sum_cons, List.length_cons]
    push_cast at ih ⊢
    linarith

theorem sum_take_le_sum_take (counts : List ℕ) {i j : ℕ} (h : i ≤ j) :
    (counts.take i).sum ≤ (counts.take j).sum :=
  (List.take_prefix_take_left h).sublist.sum_le_sum fun _ _ => Nat.zero_le _

theorem sum_take_le_sum (counts : List ℕ) (i : ℕ) : (counts.take i).sum ≤ counts.sum :=
  (List.take_sublist i counts).sum_le_sum fun _ _ => Nat.zero_le _

variable {t : Timeline ℝ} {labels : List String} {step : ℝ}

theorem durations_nonneg (hvalid : t.validate = .ok ()) : ∀ d ∈ t.durations, 0 ≤ d :=
  Timeline.differences_nonneg (Timeline.decreases_of_validate hvalid)

theorem totalDuration_eq (t : Timeline ℝ) : t.totalDuration = t.durations.sum := Scalar.sum_real _

theorem sampleCount_eq (hroom : HasRoom t step) : sampleCount t step = ⌈t.durations.sum / step⌉₊ := by
  have hn := sampleCount_lt_of_hasRoom hroom
  have hsize : Word.size = 2 ^ 64 := rfl
  have hword : sampleCount t step = min ⌈t.totalDuration / step⌉₊ (Word.size - 1) := rfl
  rw [totalDuration_eq] at hword
  omega

section Room

variable (hvalid : t.validate = .ok ()) (hstep : 0 < step) (hroom : HasRoom t step)
include hvalid hstep hroom

theorem floor_le_sampleCount {d : ℝ} (hd : d ∈ t.durations) : ⌊d / step⌋₊ ≤ sampleCount t step := by
  rw [sampleCount_eq hroom]
  refine le_trans (Nat.floor_mono ?_) (Nat.floor_le_ceil _)
  exact div_le_div_of_nonneg_right (List.single_le_sum (durations_nonneg hvalid) d hd) hstep.le

theorem counts_eq : counts t step = t.durations.map fun d => ⌊d / step⌋₊ := by
  refine List.map_congr_left fun d hd => ?_
  have hle := floor_le_sampleCount hvalid hstep hroom hd
  have hn := sampleCount_lt_of_hasRoom hroom
  have hsize : Word.size = 2 ^ 64 := rfl
  have hword : Scalar.floorNat (d / step) = min ⌊d / step⌋₊ (Word.size - 1) := rfl
  omega

theorem inWords_real : InWords (sampleCount t step) (counts t step) := by
  refine inWords_of_hasRoom hroom fun count hcount => ?_
  rw [counts_eq hvalid hstep hroom] at hcount
  obtain ⟨d, hd, rfl⟩ := List.mem_map.mp hcount
  have hle := floor_le_sampleCount hvalid hstep hroom hd
  have hn := sampleCount_lt_of_hasRoom hroom
  omega

theorem sum_counts_mul_le : (counts t step).sum * step ≤ t.durations.sum := by
  rw [counts_eq hvalid hstep hroom]
  exact sum_floor_mul_le (durations_nonneg hvalid) hstep

theorem sum_counts_le : (counts t step).sum ≤ sampleCount t step := by
  rw [sampleCount_eq hroom, ← Nat.cast_le (α := ℝ)]
  exact ((le_div_iff₀ hstep).mpr (sum_counts_mul_le hvalid hstep hroom)).trans (Nat.le_ceil _)

theorem sampleCount_le : sampleCount t step ≤ (counts t step).sum + t.numSegments := by
  rw [sampleCount_eq hroom, counts_eq hvalid hstep hroom, ← Timeline.length_durations, Nat.ceil_le,
    div_le_iff₀ hstep]
  exact sum_le_floor_mul t.durations hstep

/-- No segment is cut. -/
theorem stop_cursor {k count : ℕ} (hcount : (counts t step)[k]? = some count) :
    stop (sampleCount t step) (cursor t step k) count = cursor t step k + count := by
  obtain ⟨hk, rfl⟩ := List.getElem?_eq_some_iff.mp hcount
  have hwords := inWords_real hvalid hstep hroom
  have hnext : ((counts t step).take (k + 1)).sum ≤ sampleCount t step :=
    (sum_take_le_sum (counts t step) (k + 1)).trans (sum_counts_le hvalid hstep hroom)
  rw [List.sum_take_succ _ k hk] at hnext
  have hcursor : cursor t step k = ((counts t step).take k).sum :=
    (cursor_eq hwords k).trans (min_eq_left (by omega))
  rw [hcursor, stop_eq (by omega) (hwords _ (List.getElem_mem hk)), min_eq_left hnext]

end Room

/-! ## Commensurate durations -/

/-- Every duration is a whole multiple of the step. -/
def Commensurate (t : Timeline ℝ) (step : ℝ) : Prop := ∀ d ∈ t.durations, ∃ c : ℕ, d = c * step

/-- The whole steps of the segments take all of their time. -/
def StepsFill (t : Timeline ℝ) (step : ℝ) : Prop :=
  t.durations = (counts t step).map fun c : ℕ => (c : ℝ) * step

theorem stepsFill_of_commensurate (hvalid : t.validate = .ok ()) (hstep : 0 < step) (hroom : HasRoom t step)
    (hwhole : Commensurate t step) : StepsFill t step := by
  rw [StepsFill, counts_eq hvalid hstep hroom, List.map_map]
  refine (List.map_id _).symm.trans (List.map_congr_left fun d hd => ?_)
  obtain ⟨c, rfl⟩ := hwhole d hd
  rw [Function.comp_apply, mul_div_cancel_right₀ _ hstep.ne', Nat.floor_natCast, id]

theorem sum_take_durations (h : StepsFill t step) (k : ℕ) :
    (t.durations.take k).sum = (((counts t step).take k).sum : ℕ) * step := by
  rw [show t.durations = _ from h, ← List.map_take, Nat.cast_list_sum]
  exact List.sum_map_mul_right _ (fun c : ℕ => (c : ℝ)) step

theorem sum_durations (h : StepsFill t step) :
    t.durations.sum = ((counts t step).sum : ℕ) * step := by
  have hall := sum_take_durations h (counts t step).length
  have hlength : t.durations.length = (counts t step).length := by
    rw [length_counts, Timeline.length_durations]
  rwa [List.take_length, ← hlength, List.take_length] at hall

theorem sampleCount_eq_sum (hstep : 0 < step) (hroom : HasRoom t step)
    (h : StepsFill t step) :
    sampleCount t step = (counts t step).sum := by
  rw [sampleCount_eq hroom, sum_durations h, mul_div_cancel_right₀ _ hstep.ne', Nat.ceil_natCast]

/-- A time in the step of a sample is in the segment in whose run the sample is. -/
theorem inForce_iff_inRun (hstep : 0 < step) (h : StepsFill t step)
    {j k : ℕ} {time : ℝ} (hlow : j * step ≤ time) (hhigh : time < (j + 1 : ℕ) * step) :
    t.InForce k time ↔ InRun (counts t step) k j := by
  have hle (a : ℕ) : a * step ≤ time ↔ a ≤ j := by
    refine ⟨fun ha => ?_, fun ha => le_trans ?_ hlow⟩
    · have hlt : (a : ℝ) < (j + 1 : ℕ) := lt_of_mul_lt_mul_right (ha.trans_lt hhigh) hstep.le
      exact Nat.lt_succ_iff.mp (Nat.cast_lt.mp hlt)
    · exact mul_le_mul_of_nonneg_right (Nat.cast_le.mpr ha) hstep.le
  rw [Timeline.inForce_iff, sum_take_durations h, sum_take_durations h, hle, ← not_le (b := time), hle,
    not_le]
  exact ⟨And.right, fun hrun => ⟨length_counts t step ▸ hrun.lt_length, hrun⟩⟩

/-- Of evenly spaced times over a whole number of steps all but the last are in the step of their sample. -/
theorem spaced_mem_step {n j : ℕ} (hstep : 0 < step) (hj : j + 1 < n) :
    ∃ time, (spaced (n * step) n)[j]? = some time ∧ j * step ≤ time ∧ time < (j + 1 : ℕ) * step := by
  obtain ⟨m, rfl⟩ : ∃ m, n = m + 1 := ⟨n - 1, by omega⟩
  -- The samples stand `(m + 1) / m` steps apart, so that sample `j` is late by `j / m` of a step.
  have hm : (0 : ℝ) < m := Nat.cast_pos.mpr (by omega)
  have hjm : (j : ℝ) + 1 ≤ m := by exact_mod_cast Nat.lt_of_succ_lt_succ hj
  have htime : (spaced ((m + 1 : ℕ) * step) (m + 1))[j]? = some ((m + 1 : ℕ) * step / m * j) := by
    have hmany : 1 < m + 1 := by omega
    simp [spaced, hmany, Nat.lt_of_succ_lt hj]
  refine ⟨_, htime, ?_, ?_⟩
  · rw [div_mul_eq_mul_div, le_div_iff₀ hm]
    push_cast
    nlinarith only [mul_nonneg hstep.le (Nat.cast_nonneg (α := ℝ) j)]
  · rw [div_mul_eq_mul_div, div_lt_iff₀ hm]
    push_cast
    nlinarith only [mul_le_mul_of_nonneg_left hjm hstep.le, hstep]

/-- The last sample is in the run of the last segment that takes time. -/
theorem lastPositive_of_inRun (hstep : 0 < step) (h : StepsFill t step) {j k : ℕ}
    (hj : j + 1 = (counts t step).sum) (hrun : InRun (counts t step) k j) : t.LastPositive k := by
  have hread (i : ℕ) : t.durations[i]? = (counts t step)[i]?.map fun c : ℕ => (c : ℝ) * step := by
    rw [show t.durations = _ from h, List.getElem?_map]
  have hk := hrun.lt_length
  obtain ⟨hstart, hend⟩ := hrun
  have htake := List.sum_take_succ (counts t step) k hk
  refine ⟨⟨(counts t step)[k] * step, ?_, ?_⟩, fun k' hk' d hd => ?_⟩
  · rw [hread, List.getElem?_eq_getElem hk, Option.map_some]
  · exact mul_pos (Nat.cast_pos.mpr (by omega)) hstep
  · obtain ⟨c, hc, rfl⟩ := Option.map_eq_some_iff.mp ((hread k').symm.trans hd)
    obtain ⟨hlt, rfl⟩ := List.getElem?_eq_some_iff.mp hc
    have hbefore := sum_take_le_sum_take (counts t step) (show k + 1 ≤ k' from hk')
    have hafter := sum_take_le_sum (counts t step) (k' + 1)
    have hnone := List.sum_take_succ (counts t step) k' hlt
    have hzero : (counts t step)[k'] = 0 := by omega
    simp [hzero]

/-! ## The loss of a raster -/

/-- No segment is cut, and of every segment less than one step is lost. -/
structure LosesRemainders (r : Raster ℝ) (t : Timeline ℝ) (step : ℝ) : Prop where
  uncut : ∀ k count, (counts t step)[k]? = some count →
    stop r.size (cursor t step k) count = cursor t step k + count
  filled_mul_le : r.filled * step ≤ t.totalDuration
  filled_le : r.filled ≤ r.size
  size_le : r.size ≤ r.filled + t.numSegments

/-- Every sample but the last is taken from the segment that is in force at its time. The last one stands at the
end, where none is in force, or at zero if it is the only one; it is taken from the last segment that takes
time. -/
structure SamplesInForce (r : Raster ℝ) (t : Timeline ℝ) : Prop where
  filled : r.filled = r.size
  inForce : ∀ j, j + 1 < r.size → ∃ k time, r.times[j]? = some time ∧
    (∀ k', t.InForce k' time ↔ k' = k) ∧ r.amplitudes.column? j = t.segmentCoeffs k
  last : ∀ j, j + 1 = r.size → ∃ k, t.LastPositive k ∧ r.amplitudes.column? j = t.segmentCoeffs k

theorem filled_ofTimeline_real (labels : List String) (hvalid : t.validate = .ok ()) (hstep : 0 < step)
    (hroom : HasRoom t step) : (ofTimeline t labels step).filled = (counts t step).sum :=
  (filled_ofTimeline (inWords_real hvalid hstep hroom)).trans
    (min_eq_right (sum_counts_le hvalid hstep hroom))

theorem losesRemainders_ofTimeline (hvalid : t.validate = .ok ()) (hstep : 0 < step)
    (hroom : HasRoom t step) : (ofTimeline t labels step).LosesRemainders t step where
  uncut k count hcount := by
    rw [size_ofTimeline]
    exact stop_cursor hvalid hstep hroom hcount
  filled_mul_le := by
    rw [filled_ofTimeline_real labels hvalid hstep hroom, totalDuration_eq]
    exact sum_counts_mul_le hvalid hstep hroom
  filled_le := by
    rw [filled_ofTimeline_real labels hvalid hstep hroom, size_ofTimeline]
    exact sum_counts_le hvalid hstep hroom
  size_le := by
    rw [filled_ofTimeline_real labels hvalid hstep hroom, size_ofTimeline]
    exact sampleCount_le hvalid hstep hroom

theorem samplesInForce_ofTimeline (hvalid : t.validate = .ok ()) (hlabels : labels.length = t.numControls)
    (hstep : 0 < step) (hroom : HasRoom t step) (hwhole : Commensurate t step) :
    (ofTimeline t labels step).SamplesInForce t := by
  have hfill := stepsFill_of_commensurate hvalid hstep hroom hwhole
  have hn := sampleCount_eq_sum hstep hroom hfill
  have hfilled := filled_ofTimeline_real labels hvalid hstep hroom
  have hsize := (size_ofTimeline t labels step).trans hn
  have hcovered := (expands_ofTimeline hvalid hlabels (inWords_real hvalid hstep hroom)).covered
  rw [hfilled] at hcovered
  refine ⟨hfilled.trans hsize.symm, fun j hj => ?_, fun j hj => ?_⟩ <;> rw [hsize] at hj
  · obtain ⟨k, -, hrun, hcolumn⟩ := hcovered j (by omega)
    obtain ⟨time, htime, hlow, hhigh⟩ := spaced_mem_step hstep hj
    refine ⟨k, time, ?_, fun k' => (inForce_iff_inRun hstep hfill hlow hhigh).trans (hrun k'), hcolumn⟩
    rw [← htime, ← sum_durations hfill, ← totalDuration_eq, ← hn]
    rfl
  · obtain ⟨k, -, hrun, hcolumn⟩ := hcovered j (by omega)
    exact ⟨k, lastPositive_of_inRun hstep hfill hj ((hrun k).mpr rfl), hcolumn⟩

/-- Only what cannot be stored is not sampled. The loss is bounded, and there is none where the durations are
whole multiples of the step. -/
theorem rasterize_loss (hvalid : t.validate = .ok ()) (hlabels : labels.length = t.numControls)
    (hstep : 0 < step) :
    (¬HasRoom t step → rasterize t labels step = .error .tooLarge) ∧
      (HasRoom t step → ∃ r, rasterize t labels step = .ok r ∧ r.LosesRemainders t step ∧
        (Commensurate t step → r.SamplesInForce t)) := by
  have hpositive : Scalar.isPositive step = true := by simpa using hstep
  obtain ⟨hok, herror⟩ := rasterize_eq hlabels hpositive
  exact ⟨herror, fun hroom => ⟨_, hok hroom, losesRemainders_ofTimeline hvalid hstep hroom,
    samplesInForce_ofTimeline hvalid hlabels hstep hroom⟩⟩

theorem rasterize_loss_of_one_and_two_steps :
    let t : Timeline ℝ := ⟨[1, 2, 2, 4], Grid.ofFn 1 3 fun _ k => k, .step⟩
    t.validate = .ok () ∧ HasRoom t 1 ∧ Commensurate t 1 ∧
      ∃ r, rasterize t ["sx0"] 1 = .ok r ∧ r.LosesRemainders t 1 ∧ r.SamplesInForce t := by
  intro t
  have hdurations : t.durations = [1, 0, 2] := by
    have h₁ : (2 : ℝ) - 1 = 1 := by norm_num
    have h₂ : (4 : ℝ) - 2 = 2 := by norm_num
    simp [t, Timeline.durations, Timeline.differences, h₁, h₂]
  have hvalid : t.validate = .ok () := by
    have h₁ : ¬(2 : ℝ) < 1 := by norm_num
    have h₂ : ¬(4 : ℝ) < 2 := by norm_num
    simp [t, Timeline.validate, Timeline.decreases, Interpolation.accepts, h₁, h₂]
  have hcount : sampleCount t 1 = 3 := by
    have hword : sampleCount t 1 = min ⌈t.totalDuration / 1⌉₊ (Word.size - 1) := rfl
    have htotal : t.totalDuration / 1 = (3 : ℕ) := by
      rw [totalDuration_eq, hdurations]
      norm_num
    rw [hword, htotal, Nat.ceil_natCast]
    rfl
  have hroom : HasRoom t 1 := by
    rw [HasRoom, hcount]
    exact ⟨by decide, by decide⟩
  have hlabels : ["sx0"].length = t.numControls := rfl
  have hwhole : Commensurate t 1 := by
    rw [Commensurate, hdurations]
    simp only [List.forall_mem_cons]
    exact ⟨⟨1, by simp⟩, ⟨0, by simp⟩, ⟨2, by simp⟩, List.forall_mem_nil _⟩
  obtain ⟨r, hr, hloss, hexact⟩ := (rasterize_loss hvalid hlabels one_pos).2 hroom
  exact ⟨hvalid, hroom, hwhole, r, hr, hloss, hexact hwhole⟩

end Raster
end QubitPulse
