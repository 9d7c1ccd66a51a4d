import QubitPulse.Proofs.Double.Division
import QubitPulse.Proofs.Raster.Expansion

/-!
# Rasters of doubles

Where the samples of a valid timeline can be stored, every segment is short enough for the cursor to stay
within a machine word: a segment is not longer than the whole timeline, and neither the sum of the durations
nor the quotient by the step is rounded across a power of two that bounds the number of samples.
-/
namespace QubitPulse

/-- Durations between finite breakpoints in order are not below zero. -/
theorem Timeline.nonnegative_differences {xs : List Float} (hfin : ∀ x ∈ xs, Scalar.isFinite x = true)
    (h : decreases xs = false) : ∀ d ∈ differences xs, Double.Nonnegative d.toModel.unpack := by
  fun_induction differences xs with
  | case1 a b rest ih =>
    rw [decreases, Bool.or_eq_false_iff, Double.lt_eq, decide_eq_false_iff_not] at h
    obtain ⟨ha, hrest⟩ := List.forall_mem_cons.mp hfin
    obtain ⟨hsub, hstored⟩ := Double.sub_nonnegative (hrest b (by simp)) ha (Double.stored_unpack b)
      (Double.stored_unpack a) h.1
    have hfirst : Double.Nonnegative (b - a).toModel.unpack := by
      rw [Double.unpack_sub]
      exact (Double.unpack_pack_nonnegative hsub hstored).1
    exact List.forall_mem_cons.mpr ⟨hfirst, ih hrest h.2⟩
  | case2 xs hshort => exact List.forall_mem_nil _

namespace Raster

variable {t : Timeline Float} {labels : List String} {step : Float}

/-- No segment of a timeline is so long that the cursor would leave the words. -/
theorem inWords (hvalid : t.validate = .ok ()) (hstep : Scalar.isPositive step = true)
    (hroom : HasRoom t step) : InWords (sampleCount t step) (counts t step) := by
  have hdurations := Timeline.nonnegative_differences (Timeline.finite_of_validate hvalid).1
    (Timeline.decreases_of_validate hvalid)
  obtain ⟨htotal, hpart⟩ := Double.sum_nonnegative hdurations
  have hwhole : Double.floorNat (t.totalDuration / step) < 2 ^ 60 :=
    (Double.floorNat_le_ceilNat _).trans_lt (sampleCount_lt_of_hasRoom hroom)
  refine inWords_of_hasRoom hroom fun count hcount => ?_
  obtain ⟨d, hd, rfl⟩ := List.mem_map.mp hcount
  exact Double.floorNat_div_lt (hdurations d hd) htotal (hpart d hd) hstep (by norm_num) hwhole

/-- A valid timeline whose samples can be stored is expanded segment by segment into a raster. -/
theorem rasterize_expands (hvalid : t.validate = .ok ()) (hlabels : labels.length = t.numControls)
    (hstep : Scalar.isPositive step = true) (hroom : HasRoom t step) :
    ∃ r, rasterize t labels step = .ok r ∧ r.Expands t labels step :=
  ⟨ofTimeline t labels step, (rasterize_eq hlabels hstep).1 hroom,
    expands_ofTimeline hvalid hlabels (inWords hvalid hstep hroom)⟩

theorem rasterize_expands_with_a_remainder :
    let t : Timeline Float :=
      ⟨[0.5, 2.0, 2.0, 3.0], Grid.ofFn 2 3 fun m k => Float.ofNat (3 * m + k + 1), .step⟩
    t.validate = .ok () ∧ HasRoom t 0.75 ∧ sampleCount t 0.75 = 4 ∧ counts t 0.75 = [2, 0, 1] ∧
      ∃ r, rasterize t ["sx0", "sz0"] 0.75 = .ok r ∧ r.Expands t ["sx0", "sz0"] 0.75 := by
  intro t
  have hfacts : t.validate = .ok () ∧ Scalar.isPositive (0.75 : Float) = true ∧
      sampleCount t 0.75 = 4 ∧ counts t 0.75 = [2, 0, 1] := by
    decide +kernel
  obtain ⟨hvalid, hstep, hsize, hcounts⟩ := hfacts
  have hroom : HasRoom t 0.75 := by
    rw [HasRoom, hsize]
    exact ⟨rfl, rfl⟩
  exact ⟨hvalid, hroom, hsize, hcounts, rasterize_expands hvalid rfl hstep hroom⟩

end Raster
end QubitPulse
