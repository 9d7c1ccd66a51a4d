import QubitPulse.Proofs.Double.Addition
import QubitPulse.Proofs.Grid
import QubitPulse.Proofs.Result
import QubitPulse.Proofs.Storage
import QubitPulse.Timeline.Builder

/-!
# Timelines from segments

The breakpoints of a timeline are the running sums of its durations, and the durations are checked one
at a time. Since a sum with a duration never decreases, the sums of doubles are in order; but they can
leave the range, and whether they do is seen at the last of them.
-/
namespace QubitPulse

namespace Timeline

variable {α : Type}

theorem accumulate_ne_nil [Scalar α] (start : α) (ds : List α) : accumulate start ds ≠ [] := by
  cases ds <;> simp [accumulate]

theorem length_accumulate [Scalar α] (start : α) (ds : List α) :
    (accumulate start ds).length = ds.length + 1 := by
  induction ds generalizing start with
  | nil => rfl
  | cons d ds ih => simp [accumulate, ih]

/-- The last breakpoint is the sum of all durations. -/
theorem getLast?_accumulate [Scalar α] (start : α) (ds : List α) :
    (accumulate start ds).getLast? = some (ds.foldl (· + ·) start) := by
  induction ds generalizing start with
  | nil => rfl
  | cons d ds ih =>
    rw [accumulate, List.getLast?_cons_of_ne_nil (accumulate_ne_nil _ _), ih]
    rfl

/-- Running sums go on from the last of the first part. -/
theorem accumulate_append [Scalar α] (start : α) (ds ds' : List α) : accumulate start (ds ++ ds') =
    accumulate start ds ++ (accumulate (ds.foldl (· + ·) start) ds').tail := by
  induction ds generalizing start with
  | nil => cases ds' <;> rfl
  | cons d ds ih => rw [List.cons_append, accumulate, ih, accumulate, List.foldl_cons, List.cons_append]

section Doubles

variable {start : Float} {ds : List Float}

theorem decreases_cons_accumulate {x : Float} (h : Scalar.lt start x = false) :
    decreases (x :: accumulate start ds) = decreases (accumulate start ds) := by
  cases ds <;> simp [accumulate, decreases, h]

/-- Running sums of durations are in order. -/
theorem decreases_accumulate (hstart : Double.Nonnegative start.toModel.unpack)
    (hds : ∀ d ∈ ds, Scalar.isDuration d = true) : decreases (accumulate start ds) = false := by
  induction ds generalizing start with
  | nil => rfl
  | cons d ds ih =>
    obtain ⟨hnext, hlt, -⟩ := Double.add_duration hstart (hds d (by simp))
    rw [accumulate, decreases_cons_accumulate hlt]
    exact ih hnext fun x hx => hds x (by simp [hx])

/-- Running sums of durations are finite if the last of them is. -/
theorem finite_accumulate (hstart : Double.Nonnegative start.toModel.unpack)
    (hds : ∀ d ∈ ds, Scalar.isDuration d = true)
    (hlast : Scalar.isFinite (ds.foldl (· + ·) start) = true) :
    Scalar.isFinite start = true ∧ ∀ x ∈ accumulate start ds, Scalar.isFinite x = true := by
  induction ds generalizing start with
  | nil =>
    refine ⟨hlast, fun x hx => ?_⟩
    obtain rfl : x = start := by simpa [accumulate] using hx
    exact hlast
  | cons d ds ih =>
    obtain ⟨hnext, -, hback⟩ := Double.add_duration hstart (hds d (by simp))
    obtain ⟨hfirst, hrest⟩ := ih hnext (fun x hx => hds x (by simp [hx])) hlast
    refine ⟨hback hfirst, fun x hx => ?_⟩
    rcases List.mem_cons.mp hx with rfl | hx
    · exact hback hfirst
    · exact hrest x hx

end Doubles

theorem finite_of_validate [Scalar α] {t : Timeline α} (h : t.validate = .ok ()) :
    (∀ x ∈ t.breakpoints, Scalar.isFinite x = true) ∧
      ∀ x ∈ t.coeffs.entries, Scalar.isFinite x = true := by
  unfold validate at h
  split_ifs at h with _ hbreakpoints _ hcoeffs
  refine ⟨by simpa using hbreakpoints, fun x hx => ?_⟩
  by_contra hfin
  exact hcoeffs (Array.any_eq_true'.mpr ⟨x, hx, by simpa using hfin⟩)

theorem decreases_of_validate [Scalar α] {t : Timeline α} (h : t.validate = .ok ()) :
    decreases t.breakpoints = false := by
  unfold validate at h
  split_ifs at h with _ _ hdecreases
  exact Bool.not_eq_true _ ▸ hdecreases

theorem length_durations [Scalar α] (t : Timeline α) : t.durations.length = t.numSegments := by
  have hlist : ∀ xs : List α, (differences xs).length = xs.length - 1 := by
    intro xs
    fun_induction differences xs with
    | case1 a b rest ih => simp [ih]
    | case2 xs h =>
      cases xs with
      | nil => rfl
      | cons a xs =>
        cases xs with
        | nil => rfl
        | cons b xs => exact absurd rfl (h a b xs)
  exact hlist t.breakpoints

theorem accepts_of_validate [Scalar α] {t : Timeline α} (h : t.validate = .ok ()) :
    t.breakpoints ≠ [] ∧ t.interpolation.accepts t.breakpoints.length t.coeffs.cols = true := by
  unfold validate at h
  split_ifs at h with hempty _ _ _ haccepts
  exact ⟨by simpa using hempty, by simpa using haccepts⟩

/-- Of a valid timeline in steps the columns are as many as the segments or one more; of a spline they are
always one more. -/
theorem cols_of_validate [Scalar α] {t : Timeline α} (h : t.validate = .ok ()) :
    t.coeffs.cols = t.numSegments ∧ t.interpolation = .step ∨ t.coeffs.cols = t.numSegments + 1 := by
  obtain ⟨hne, haccepts⟩ := accepts_of_validate h
  have hpos : 0 < t.breakpoints.length := List.length_pos_iff.mpr hne
  unfold numSegments
  cases hkind : t.interpolation with
  | step =>
    have hcols : t.coeffs.cols = t.breakpoints.length ∨ t.coeffs.cols + 1 = t.breakpoints.length := by
      simpa [hkind, Interpolation.accepts] using haccepts
    rcases hcols with hsamples | hsteps
    · exact .inr (by omega)
    · exact .inl ⟨by omega, rfl⟩
  | cubic =>
    have hcols : t.coeffs.cols = t.breakpoints.length := by
      simpa [hkind, Interpolation.accepts] using haccepts
    exact .inr (by omega)

/-! ## Columns -/

/-- Coefficients of all controls on a segment. -/
def columnAt [Scalar α] (t : Timeline α) (k : ℕ) : List α :=
  (List.range t.numControls).map fun m => t.coeffs.getD m k Scalar.zero

theorem segmentCoeffs_eq [Scalar α] {t : Timeline α} {k : ℕ} (hk : k < t.coeffs.cols) :
    t.segmentCoeffs k = some (t.columnAt k) :=
  Grid.column?_eq hk Scalar.zero

theorem isSome_segmentCoeffs {t : Timeline α} {k : ℕ} :
    (t.segmentCoeffs k).isSome = true ↔ k < t.coeffs.cols := by
  unfold segmentCoeffs Grid.column?
  split_ifs with hk <;> simp [hk]

/-- Columns of the coefficients, from the first segment on. -/
def columns [Scalar α] (t : Timeline α) : List (List α) := (List.range t.coeffs.cols).map t.columnAt

/-! ## From segments -/

def endTime [Scalar α] (t : Timeline α) : α := t.breakpoints.getLast?.getD Scalar.zero

/-- A timeline that ends at a time that is not finite has that breakpoint. -/
theorem endTime_mem {t : Timeline Float} (h : ¬Scalar.isFinite t.endTime = true) :
    t.endTime ∈ t.breakpoints := by
  unfold endTime at h ⊢
  cases hlast : t.breakpoints.getLast? with
  | none => simp [hlast, show Scalar.isFinite (Scalar.zero : Float) = true from rfl] at h
  | some x => simpa using List.mem_of_getLast? hlast

def steps [Scalar α] (numControls : ℕ) (segments : List (α × List α)) : Timeline α :=
  ⟨accumulate Scalar.zero (segments.map Prod.fst),
    Grid.ofColumns numControls (segments.map Prod.snd) Scalar.zero, .step⟩

theorem numSegments_steps [Scalar α] (numControls : ℕ) (segments : List (α × List α)) :
    (steps numControls segments).numSegments = segments.length := by
  simp [numSegments, steps, length_accumulate]

theorem columns_steps [Scalar α] {numControls : ℕ} {segments : List (α × List α)}
    (h : ∀ s ∈ segments, s.2.length = numControls) :
    (steps numControls segments).columns = segments.map Prod.snd := by
  have hcols : (steps numControls segments).coeffs.cols = segments.length := by
    simp [steps, Grid.ofColumns]
  refine List.ext_getElem (by simp [columns, hcols]) fun k hk hk' => ?_
  have hk : k < segments.length := by simpa using hk'
  have hgiven : (steps numControls segments).segmentCoeffs k = some segments[k].2 :=
    Grid.column?_ofColumns (by simp [hk]) (h _ (List.getElem_mem hk))
  rw [segmentCoeffs_eq (hcols ▸ hk)] at hgiven
  simpa [columns] using Option.some.inj hgiven

theorem endTime_steps [Scalar α] (numControls : ℕ) (segments : List (α × List α)) :
    (steps numControls segments).endTime = (segments.map Prod.fst).foldl (· + ·) Scalar.zero := by
  simp only [endTime, steps, getLast?_accumulate, Option.getD_some]

/-- Where no column is stored, only the number of rows has to be addressed. -/
theorem ofSegments_eq [Scalar α] (numControls : ℕ) (segments : List (α × List α)) :
    ofSegments numControls segments = if numControls ≤ Word.mostBytes then
      .ok (steps numControls segments) else .error .tooLarge := by
  unfold ofSegments Storage.reserve
  rw [Storage.fits_noColumns]
  by_cases hn : numControls ≤ Word.mostBytes
  · simp only [hn, decide_true, if_true, Result.ok_bind]
    rfl
  · simp only [hn, decide_false, if_false, Bool.false_eq_true]
    rfl

theorem ofSegments_eq_ok [Scalar α] {numControls : ℕ} {segments : List (α × List α)}
    {t : Timeline α} (h : ofSegments numControls segments = .ok t) :
    t = steps numControls segments := by
  obtain ⟨_, _, ht⟩ := Result.bind_eq_ok.mp h
  exact (Except.ok.inj ht).symm

/-- A timeline whose segments were checked can be driven if it ends at a finite time; if it does not,
that is the only fault found. -/
theorem validate_ofSegments {numControls : ℕ} {segments : List (Float × List Float)}
    {t : Timeline Float} (h : ofSegments numControls segments = .ok t)
    (hdurations : ∀ s ∈ segments, Scalar.isDuration s.1 = true)
    (hcoeffs : ∀ s ∈ segments, ∀ c ∈ s.2, Scalar.isFinite c = true) :
    t.validate = if Scalar.isFinite t.endTime then .ok ()
      else .error (.invalidPulse .nonFiniteBreakpoints) := by
  obtain rfl := ofSegments_eq_ok h
  set ds := segments.map Prod.fst with hds
  have hd : ∀ d ∈ ds, Scalar.isDuration d = true := by
    simpa [hds] using fun d c hc => hdurations (d, c) hc
  have hlast : (steps numControls segments).endTime = ds.foldl (· + ·) Scalar.zero :=
    endTime_steps numControls segments
  have hzero : Double.Nonnegative (Scalar.zero : Float).toModel.unpack := by
    rw [show (Scalar.zero : Float).toModel.unpack = .zero .positive from rfl]
    trivial
  have hempty : (accumulate (Scalar.zero : Float) ds).isEmpty = false := by
    cases ds <;> rfl
  rw [hlast]
  unfold validate steps
  simp only [← hds, hempty, Bool.false_eq_true, if_false]
  by_cases hfin : Scalar.isFinite (ds.foldl (· + ·) (Scalar.zero : Float)) = true
  · have hall := (finite_accumulate hzero hd hfin).2
    have hentries : ∀ x ∈ (Grid.ofColumns numControls (segments.map Prod.snd)
        (Scalar.zero : Float)).entries, Scalar.isFinite x = true := by
      intro x hx
      rcases Grid.mem_ofColumns hx with rfl | ⟨c, hc, hx⟩
      · rfl
      · obtain ⟨s, hs, rfl⟩ := List.mem_map.mp hc
        exact hcoeffs s hs x hx
    rw [if_neg (by simpa using hall), decreases_accumulate hzero hd, if_neg (by simp),
      if_neg (by simpa using fun i hi => hentries _ (Array.getElem_mem hi)), if_neg, if_pos hfin]
    simp [Interpolation.accepts, length_accumulate, Grid.ofColumns, hds]
  · have hmem := List.mem_of_getLast? (getLast?_accumulate (Scalar.zero : Float) ds)
    rw [if_pos (List.any_eq_true.mpr ⟨_, hmem, by simpa using hfin⟩), if_neg hfin]

end Timeline
end QubitPulse
