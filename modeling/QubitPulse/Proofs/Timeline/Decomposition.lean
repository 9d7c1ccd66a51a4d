import QubitPulse.Decomposition
import QubitPulse.Proofs.Timeline.Segments

/-!
# Timelines from gates

A handler reaches the timeline through its builder alone: it may append segments or drive controls, and
both check what they append. So a decomposition can only be refused for the time at which it ends.
-/
namespace QubitPulse

namespace PulseBuilder

variable {α : Type} [Scalar α]

/-- The second builder was made of the first by appending segments and driving controls. -/
inductive Extends : PulseBuilder α → PulseBuilder α → Prop where
  | refl (b : PulseBuilder α) : Extends b b
  | segment {b b₁ b₂ : PulseBuilder α} (duration : α) (column : List α)
      (first : b.addSegment duration column = .ok b₁) (rest : Extends b₁ b₂) : Extends b b₂
  | drive {b b₁ b₂ : PulseBuilder α} (duration : α) (amplitudes : List (ℕ × α))
      (first : b.drive duration amplitudes = .ok b₁) (rest : Extends b₁ b₂) : Extends b b₂

def Checked (b : PulseBuilder α) : Prop :=
  ∀ s ∈ b.latest, refusal? b.numControls s.1 s.2 = none

theorem refusal?_eq_none {n : ℕ} {duration : α} {column : List α} :
    refusal? n duration column = none ↔ Scalar.isDuration duration = true ∧
      column.length = n ∧ ∀ c ∈ column, Scalar.isFinite c = true := by
  unfold refusal?
  split_ifs with hd hn <;> simp_all

theorem addSegment_eq_ok {b b' : PulseBuilder α} {duration : α} {column : List α} :
    b.addSegment duration column = .ok b' ↔ refusal? b.numControls duration column = none ∧
      b' = { b with latest := (duration, column) :: b.latest } := by
  unfold addSegment
  cases refusal? b.numControls duration column with
  | none => simp [eq_comm]
  | some e => simp

/-- Controls are driven where a column for all of them has room, each is there, and the column is
accepted as a segment. -/
theorem drive_eq_ok_iff {b b' : PulseBuilder α} {duration : α} {amplitudes : List (ℕ × α)} :
    b.drive duration amplitudes = .ok b' ↔ 8 * b.numControls ≤ Word.mostBytes ∧
      (∀ p ∈ amplitudes, p.1 < b.numControls) ∧
        b.addSegment duration (columnOf b.numControls amplitudes) = .ok b' := by
  unfold drive Storage.reserve
  rw [Storage.fits_row]
  by_cases hroom : 8 * b.numControls ≤ Word.mostBytes
  · simp only [hroom, decide_true, if_true, Result.ok_bind, true_and]
    cases hfind : amplitudes.find? (fun p => b.numControls ≤ p.1) with
    | none => simpa using fun _ => by simpa using hfind
    | some p =>
      obtain ⟨i, x⟩ := p
      have hi : b.numControls ≤ i := by simpa using List.find?_some hfind
      have hrange : ¬∀ p ∈ amplitudes, p.1 < b.numControls := fun h =>
        absurd (h _ (List.mem_of_find?_eq_some hfind)) (by simpa using hi)
      exact iff_of_false nofun fun h => hrange h.1
  · simp [hroom, Bind.bind, Except.bind]

theorem drive_eq_ok {b b' : PulseBuilder α} {duration : α} {amplitudes : List (ℕ × α)}
    (h : b.drive duration amplitudes = .ok b') :
    b.addSegment duration (columnOf b.numControls amplitudes) = .ok b' :=
  (drive_eq_ok_iff.mp h).2.2

theorem checked_addSegment {b b' : PulseBuilder α} {duration : α} {column : List α}
    (hb : b.Checked) (h : b.addSegment duration column = .ok b') :
    b'.Checked ∧ b'.numControls = b.numControls := by
  obtain ⟨hnone, rfl⟩ := addSegment_eq_ok.mp h
  refine ⟨fun s hs => ?_, rfl⟩
  rcases List.mem_cons.mp hs with rfl | hs
  · exact hnone
  · exact hb s hs

/-- Whatever extends a builder keeps its segments checked. -/
theorem Extends.checked {b b' : PulseBuilder α} (h : b.Extends b') (hb : b.Checked) :
    b'.Checked ∧ b'.numControls = b.numControls := by
  induction h with
  | refl b => exact ⟨hb, rfl⟩
  | segment duration column first rest ih =>
    obtain ⟨h₁, hn⟩ := checked_addSegment hb first
    exact ⟨(ih h₁).1, (ih h₁).2.trans hn⟩
  | drive duration amplitudes first rest ih =>
    obtain ⟨h₁, hn⟩ := checked_addSegment hb (drive_eq_ok first)
    exact ⟨(ih h₁).1, (ih h₁).2.trans hn⟩

end PulseBuilder

/-- Every handler touches its builder only by appending segments and driving controls. -/
def Registry.Appends {π α : Type} [Scalar α] (r : Registry π α) : Prop :=
  ∀ kind handler, r.handler? kind = some handler →
    ∀ context g b b', handler context g b = .ok b' → b.Extends b'

namespace Decomposer

variable {π α : Type} [Scalar α]

theorem appendGate_extends {d : Decomposer π α} (hd : d.registry.Appends) {b b' : PulseBuilder α}
    {g : Gate α} (h : d.appendGate b g = .ok b') : b.Extends b' := by
  unfold appendGate at h
  split at h
  · cases h
  · next handler hhandler => exact hd _ _ hhandler _ _ _ _ h

theorem checked_foldlM {d : Decomposer π α} (hd : d.registry.Appends) (gates : List (Gate α))
    {b b' : PulseBuilder α} (hb : b.Checked) (h : gates.foldlM d.appendGate b = .ok b') :
    b'.Checked ∧ b'.numControls = b.numControls := by
  induction gates generalizing b with
  | nil =>
    cases h
    exact ⟨hb, rfl⟩
  | cons g gates ih =>
    obtain ⟨b₁, hfirst, hrest⟩ := Result.bind_eq_ok.mp h
    obtain ⟨h₁, hn⟩ := (appendGate_extends hd hfirst).checked hb
    exact ⟨(ih h₁ hrest).1, (ih h₁ hrest).2.trans hn⟩

/-- A decomposition passes the check exactly if the durations of all its segments have a finite sum;
otherwise its breakpoints are found not to be finite. -/
theorem validate_decompose {d : Decomposer π Float} (hd : d.registry.Appends)
    {gates : List (Gate Float)} {t : Timeline Float} (h : d.decompose gates = .ok t) :
    t.numControls = d.numControls ∧ t.validate = if Scalar.isFinite t.endTime then .ok ()
      else .error (.invalidPulse .nonFiniteBreakpoints) := by
  obtain ⟨b, hfold, hfinish⟩ := Result.bind_eq_ok.mp h
  obtain ⟨hb, hn⟩ := checked_foldlM hd gates (fun s hs => by cases hs) hfold
  have hsegments : ∀ s ∈ b.segments, Scalar.isDuration s.1 = true ∧
      ∀ c ∈ s.2, Scalar.isFinite c = true := by
    intro s hs
    obtain ⟨hduration, _, hcoeffs⟩ :=
      PulseBuilder.refusal?_eq_none.mp (hb s (List.mem_reverse.mp hs))
    exact ⟨hduration, hcoeffs⟩
  refine ⟨?_, Timeline.validate_ofSegments hfinish (fun s hs => (hsegments s hs).1)
    fun s hs => (hsegments s hs).2⟩
  rw [Timeline.ofSegments_eq_ok hfinish]
  exact hn

end Decomposer
end QubitPulse
