import QubitPulse.Proofs.Exact.Evolution
import QubitPulse.Proofs.Timeline.Decomposition
import QubitPulse.Proofs.Update
import QubitPulse.Scalar.Double
import QubitPulse.Timeline.InPlace

/-!
# Calls of a builder

A builder that is held takes segments call by call, and some calls fail. What it holds afterwards are the
segments of the calls that were accepted, in order, and the timeline has these and no others. Whether a
call is accepted does not depend on the calls before it.
-/
namespace QubitPulse

namespace PulseBuilder

variable {α : Type}

/-- The amplitude for a control that was given last. -/
def lastAmplitude? (amplitudes : List (ℕ × α)) (control : ℕ) : Option α :=
  amplitudes.reverse.lookup control

theorem lastAmplitude?_append (amplitudes : List (ℕ × α)) (p : ℕ × α) (control : ℕ) :
    lastAmplitude? (amplitudes ++ [p]) control =
      if p.1 = control then some p.2 else lastAmplitude? amplitudes control := by
  obtain ⟨i, x⟩ := p
  unfold lastAmplitude?
  by_cases h : i = control
  · simp [h]
  · simp [List.lookup_cons, h, beq_eq_false_iff_ne.mpr (Ne.symm h)]

variable [Scalar α]

/-! ## Columns that are driven -/

theorem columnOf_append (n : ℕ) (amplitudes : List (ℕ × α)) (p : ℕ × α) :
    columnOf n (amplitudes ++ [p]) = (columnOf n amplitudes).set p.1 p.2 := by
  rw [columnOf, List.foldl_append]
  rfl

theorem length_columnOf (n : ℕ) (amplitudes : List (ℕ × α)) : (columnOf n amplitudes).length = n := by
  induction amplitudes using List.reverseRecOn with
  | nil => exact List.length_replicate
  | append_singleton amplitudes p ih => rw [columnOf_append, List.length_set, ih]

theorem getElem?_columnOf {n control : ℕ} (hcontrol : control < n) (amplitudes : List (ℕ × α)) :
    (columnOf n amplitudes)[control]? =
      some ((lastAmplitude? amplitudes control).getD Scalar.zero) := by
  induction amplitudes using List.reverseRecOn with
  | nil => exact List.getElem?_replicate_of_lt hcontrol
  | append_singleton amplitudes p ih =>
    rw [columnOf_append, List.getElem?_set, ih, lastAmplitude?_append, length_columnOf]
    by_cases h : p.1 = control <;> simp [h, hcontrol]

/-- In a column that is driven every control has the amplitude given last, and zero if none was given. -/
theorem columnOf_eq (n : ℕ) (amplitudes : List (ℕ × α)) : columnOf n amplitudes =
    (List.range n).map fun control => (lastAmplitude? amplitudes control).getD Scalar.zero := by
  refine List.ext_getElem? fun control => ?_
  by_cases hcontrol : control < n
  · rw [getElem?_columnOf hcontrol]
    simp [hcontrol]
  · have hlength := length_columnOf n amplitudes
    rw [List.getElem?_eq_none (by omega), List.getElem?_eq_none (by simpa using hcontrol)]

omit [Scalar α] in
/-- A control has a last amplitude only if some amplitude was given for it. -/
theorem mem_of_lastAmplitude? {amplitudes : List (ℕ × α)} {control : ℕ} {x : α}
    (h : lastAmplitude? amplitudes control = some x) : (control, x) ∈ amplitudes := by
  obtain ⟨before, rest, hsplit, -⟩ := List.lookup_eq_some_iff.mp h
  exact List.mem_reverse.mp (hsplit ▸ by simp)

theorem finite_columnOf_iff (hzero : Scalar.isFinite (Scalar.zero : α) = true) {n : ℕ}
    {amplitudes : List (ℕ × α)} (hrange : ∀ p ∈ amplitudes, p.1 < n) :
    (∀ x ∈ columnOf n amplitudes, Scalar.isFinite x = true) ↔
      ∀ p ∈ amplitudes, ∀ x ∈ lastAmplitude? amplitudes p.1, Scalar.isFinite x = true := by
  rw [columnOf_eq]
  simp only [List.forall_mem_map, List.mem_range]
  constructor
  · intro h p hp x hx
    simpa [Option.mem_def.mp hx] using h p.1 (hrange p hp)
  · intro h control _
    cases hlast : lastAmplitude? amplitudes control with
    | none => exact hzero
    | some x => exact h _ (mem_of_lastAmplitude? hlast) x hlast

/-- Segments of a builder, as the builder in place holds them. -/
def held (b : PulseBuilder α) : HeldBuilder α :=
  ⟨b.numControls, (b.segments.map Prod.fst).toArray, (b.segments.map Prod.snd).toArray⟩

omit [Scalar α] in
theorem held_latest (b : PulseBuilder α) (segment : α × List α) :
    ({ b with latest := segment :: b.latest } : PulseBuilder α).held =
      { b.held with durations := b.held.durations.push segment.1
                    columns := b.held.columns.push segment.2 } := by
  simp [held, segments]

end PulseBuilder

namespace HeldBuilder

variable {α : Type}

open PulseBuilder (lastAmplitude?)

/-! ## Calls -/

/-- Amplitudes are placed one after the other, and what fails is the first for a control that is not there. -/
theorem place_eq (amplitudes : List (ℕ × α)) (column : List α) : place amplitudes column =
    match amplitudes.find? (fun p => column.length ≤ p.1) with
    | some (i, _) => .error (.shapeMismatch (.controlIndex column.length i))
    | none => .ok (amplitudes.foldl (fun column p => column.set p.1 p.2) column) := by
  induction amplitudes generalizing column with
  | nil => rfl
  | cons p amplitudes ih =>
    obtain ⟨i, x⟩ := p
    by_cases hi : i < column.length
    · rw [place, if_pos hi, ih, List.length_set, List.find?_cons_of_neg (by simpa using hi)]
      rfl
    · rw [place, if_neg hi, List.find?_cons_of_pos (by simpa using hi)]

variable [Scalar α]

theorem addSegment_follows (b : PulseBuilder α) (duration : α) (column : List α) :
    (addSegment duration column).Follows b.held ((b.addSegment duration column).map (·.held)) := by
  unfold Update.Follows PulseBuilder.addSegment addSegment
  rw [Update.get_bind, show b.held.numControls = b.numControls from rfl]
  cases PulseBuilder.refusal? b.numControls duration column with
  | some e => rfl
  | none => exact ⟨(), congrArg (EStateM.Result.ok ()) (b.held_latest (duration, column)).symm⟩

theorem drive_follows (b : PulseBuilder α) (duration : α) (amplitudes : List (ℕ × α)) :
    (drive duration amplitudes).Follows b.held ((b.drive duration amplitudes).map (·.held)) := by
  unfold Update.Follows PulseBuilder.drive drive
  rw [Update.get_bind, show b.held.numControls = b.numControls from rfl, Update.attempt_bind]
  cases (Storage.reserve 1 [b.numControls] : Result α Unit) with
  | error e => rfl
  | ok _ =>
    rw [Result.ok_bind]
    simp only [Update.attempt_bind, place_eq, List.length_replicate]
    cases amplitudes.find? (fun p => b.numControls ≤ p.1) with
    | some p => rfl
    | none => exact addSegment_follows b duration _

/-- What can be asked of a builder that is held. -/
inductive Call (α : Type) where
  | segment (duration : α) (column : List α)
  | drive (duration : α) (amplitudes : List (ℕ × α))

namespace Call

def perform : Call α → Update (HeldBuilder α) α Unit
  | segment duration column => addSegment duration column
  | drive duration amplitudes => HeldBuilder.drive duration amplitudes

def duration : Call α → α
  | segment duration _ => duration
  | drive duration _ => duration

/-- The column that is asked for: as it is given, or the last amplitude given for each control and zero
for the others. -/
def column (n : ℕ) : Call α → List α
  | segment _ column => column
  | drive _ amplitudes =>
    (List.range n).map fun control => (lastAmplitude? amplitudes control).getD Scalar.zero

/-- The call is one for a builder of `n` controls: a duration that is finite and not negative, and a finite
coefficient for every control, or finite last amplitudes for some of the controls. -/
def Sound (n : ℕ) (call : Call α) : Prop :=
  Scalar.isDuration call.duration = true ∧
    match call with
    | segment _ column => column.length = n ∧ ∀ x ∈ column, Scalar.isFinite x = true
    | drive _ amplitudes => (∀ p ∈ amplitudes, p.1 < n) ∧
        ∀ p ∈ amplitudes, ∀ x ∈ lastAmplitude? amplitudes p.1, Scalar.isFinite x = true

/-- A column that the builder makes itself can be addressed. -/
def HasRoom (n : ℕ) : Call α → Prop
  | segment _ _ => True
  | drive _ _ => 8 * n ≤ Word.mostBytes

def Accepted (n : ℕ) (call : Call α) : Prop := call.Sound n ∧ call.HasRoom n

instance (n : ℕ) : (call : Call α) → Decidable (call.Accepted n)
  | segment duration column => inferInstanceAs (Decidable ((Scalar.isDuration duration = true ∧
      column.length = n ∧ ∀ x ∈ column, Scalar.isFinite x = true) ∧ True))
  | drive duration amplitudes => inferInstanceAs (Decidable ((Scalar.isDuration duration = true ∧
      (∀ p ∈ amplitudes, p.1 < n) ∧
        ∀ p ∈ amplitudes, ∀ x ∈ lastAmplitude? amplitudes p.1, Scalar.isFinite x = true) ∧
      8 * n ≤ Word.mostBytes))

/-- The call as an operation that returns the builder after it. -/
def extend (b : PulseBuilder α) : Call α → Result α (PulseBuilder α)
  | segment duration column => b.addSegment duration column
  | drive duration amplitudes => b.drive duration amplitudes

theorem perform_follows (call : Call α) (b : PulseBuilder α) :
    call.perform.Follows b.held ((call.extend b).map (·.held)) := by
  cases call with
  | segment duration column => exact addSegment_follows b duration column
  | drive duration amplitudes => exact drive_follows b duration amplitudes

end Call

theorem Call.extend_eq_ok (hzero : Scalar.isFinite (Scalar.zero : α) = true) {call : Call α}
    {b b' : PulseBuilder α} : call.extend b = .ok b' ↔ call.Accepted b.numControls ∧
      b' = { b with latest := (call.duration, call.column b.numControls) :: b.latest } := by
  cases call with
  | segment duration column =>
    simp [extend, PulseBuilder.addSegment_eq_ok, PulseBuilder.refusal?_eq_none, Accepted, Sound,
      HasRoom, Call.duration, Call.column]
  | drive duration amplitudes =>
    have hcolumn : (Call.drive duration amplitudes).column b.numControls =
        PulseBuilder.columnOf b.numControls amplitudes :=
      (PulseBuilder.columnOf_eq b.numControls amplitudes).symm
    rw [hcolumn, extend, PulseBuilder.drive_eq_ok_iff, PulseBuilder.addSegment_eq_ok,
      PulseBuilder.refusal?_eq_none]
    constructor
    · rintro ⟨hroom, hrange, ⟨hduration, -, hfinite⟩, rfl⟩
      exact ⟨⟨⟨hduration, hrange, (PulseBuilder.finite_columnOf_iff hzero hrange).mp hfinite⟩, hroom⟩, rfl⟩
    · rintro ⟨⟨⟨hduration, hrange, hfinite⟩, hroom⟩, rfl⟩
      exact ⟨hroom, hrange, ⟨hduration, PulseBuilder.length_columnOf _ _,
        (PulseBuilder.finite_columnOf_iff hzero hrange).mpr hfinite⟩, rfl⟩

/-! ## Runs -/

/-- A new builder after calls, whether or not they succeeded. -/
def after (n : ℕ) (calls : List (Call α)) : HeldBuilder α :=
  calls.foldl (fun b call => call.perform.after b) (new n)

/-- The segments of the calls that are accepted, in their order. -/
def acceptedSegments (n : ℕ) (calls : List (Call α)) : List (α × List α) :=
  (calls.filter fun call => call.Accepted n).map fun call => (call.duration, call.column n)

theorem acceptedSegments_cons (n : ℕ) (call : Call α) (calls : List (Call α)) :
    acceptedSegments n (call :: calls) = acceptedSegments n [call] ++ acceptedSegments n calls := by
  simp only [acceptedSegments, ← List.map_append, ← List.filter_append, List.singleton_append]

variable (hzero : Scalar.isFinite (Scalar.zero : α) = true)
include hzero

/-- A call appends its segment if it is accepted, and leaves the builder as it is otherwise. -/
theorem Call.after_held (call : Call α) (b : PulseBuilder α) : call.perform.after b.held =
    ({ b with latest := (acceptedSegments b.numControls [call]).reverse ++ b.latest } :
      PulseBuilder α).held := by
  rw [(call.perform_follows b).after_eq]
  by_cases haccepted : call.Accepted b.numControls
  · rw [(extend_eq_ok hzero).mpr ⟨haccepted, rfl⟩]
    simp [acceptedSegments, haccepted, Except.map]
  · cases hextend : call.extend b with
    | ok b' => exact absurd ((extend_eq_ok hzero).mp hextend).1 haccepted
    | error e => simp [acceptedSegments, haccepted, Except.map]

/-- After calls the builder holds the segments of those that were accepted. -/
theorem after_eq (n : ℕ) (calls : List (Call α)) :
    after n calls = (⟨n, (acceptedSegments n calls).reverse⟩ : PulseBuilder α).held := by
  -- from any builder, not only from a new one
  have hrun : ∀ latest, calls.foldl (fun b call => call.perform.after b)
      (⟨n, latest⟩ : PulseBuilder α).held =
        (⟨n, (acceptedSegments n calls).reverse ++ latest⟩ : PulseBuilder α).held := by
    induction calls with
    | nil => exact fun _ => rfl
    | cons call calls ih =>
      intro latest
      rw [List.foldl_cons, call.after_held hzero, ih, acceptedSegments_cons n call calls,
        List.reverse_append, List.append_assoc]
  rw [after, show (new n : HeldBuilder α) = (⟨n, []⟩ : PulseBuilder α).held from rfl, hrun,
    List.append_nil]

omit hzero in
theorem length_of_mem_acceptedSegments {n : ℕ} {calls : List (Call α)} {s : α × List α}
    (h : s ∈ acceptedSegments n calls) : s.2.length = n := by
  obtain ⟨call, hcall, rfl⟩ := List.mem_map.mp h
  have haccepted : call.Accepted n := by simpa using (List.mem_filter.mp hcall).2
  cases call with
  | segment duration column => exact haccepted.1.2.1
  | drive duration amplitudes => simp [Call.column]

/-- Whether a call on a builder succeeds does not depend on the calls before it. -/
theorem result_perform (n : ℕ) (calls : List (Call α)) (call : Call α) :
    call.perform.result (after n calls) = .ok () ↔ call.Accepted n := by
  rw [after_eq hzero, (call.perform_follows _).result_eq]
  constructor
  · intro h
    obtain ⟨_, h, -⟩ := Result.map_eq_ok.mp h
    obtain ⟨_, h, -⟩ := Result.map_eq_ok.mp h
    exact ((Call.extend_eq_ok hzero).mp h).1
  · intro h
    rw [(Call.extend_eq_ok hzero).mpr ⟨h, rfl⟩]
    rfl

/-- A call that fails leaves the builder as it was. -/
theorem perform_keeps (n : ℕ) (calls : List (Call α)) {call : Call α} {e : Error α} {b : HeldBuilder α}
    (h : call.perform (after n calls) = .error e b) : b = after n calls := by
  rw [after_eq hzero] at h ⊢
  exact (call.perform_follows _).keeps h

/-! ## Timelines -/

omit hzero in
/-- The builder in place finds every coefficient and gives the timeline of the other. -/
theorem finish_held {b : PulseBuilder α} (h : ∀ s ∈ b.segments, s.2.length = b.numControls) :
    b.held.finish = b.finish.map some := by
  have hstacked : Grid.ofColumns? b.numControls b.held.columns =
      some (Timeline.steps b.numControls b.segments).coeffs :=
    Grid.ofColumns?_eq Scalar.zero (by simpa [PulseBuilder.held] using fun c d => h (d, c))
  unfold finish PulseBuilder.finish Timeline.ofSegments
  rw [show b.held.numControls = b.numControls from rfl, hstacked, Result.map_bind]
  rfl

theorem finish_after (n : ℕ) (calls : List (Call α)) : (after n calls).finish =
    if n ≤ Word.mostBytes then .ok (some (Timeline.steps n (acceptedSegments n calls)))
      else .error .tooLarge := by
  have hsegments : (⟨n, (acceptedSegments n calls).reverse⟩ : PulseBuilder α).segments =
      acceptedSegments n calls := List.reverse_reverse _
  have hlength : ∀ s ∈ (⟨n, (acceptedSegments n calls).reverse⟩ : PulseBuilder α).segments,
      s.2.length = n := fun s hs => length_of_mem_acceptedSegments (hsegments ▸ hs)
  rw [after_eq hzero, finish_held hlength, PulseBuilder.finish, hsegments, Timeline.ofSegments_eq]
  split_ifs <;> rfl

/-- The timeline of the calls that were accepted: in steps from time zero on, with the column of each. -/
structure Records (n : ℕ) (accepted : List (Call α)) (t : Timeline α) : Prop where
  steps : t.interpolation = .step
  rows : t.numControls = n
  columns : t.columns = accepted.map (Call.column n)
  breakpoints : t.breakpoints.length = t.coeffs.cols + 1
  start : t.breakpoints.head? = some Scalar.zero

omit hzero in
theorem records_steps (n : ℕ) (calls : List (Call α)) :
    Records n (calls.filter fun call => call.Accepted n) (Timeline.steps n (acceptedSegments n calls)) where
  steps := rfl
  rows := rfl
  columns := by
    rw [Timeline.columns_steps fun s hs => length_of_mem_acceptedSegments hs, acceptedSegments,
      List.map_map]
    rfl
  breakpoints := by simp [Timeline.steps, Timeline.length_accumulate, Grid.ofColumns]
  start := by
    unfold Timeline.steps
    cases (acceptedSegments n calls).map Prod.fst <;> rfl

/-- What a new builder of `n` controls does after any calls: which calls succeed, what is left by those
that fail, and the timeline that is made in the end. -/
structure RecordsAccepted (n : ℕ) (calls : List (Call α)) : Prop where
  succeeds_iff (call : Call α) :
    call.perform.result (after n calls) = .ok () ↔ call.Sound n ∧ call.HasRoom n
  keeps (call : Call α) (e : Error α) (b : HeldBuilder α) :
    call.perform (after n calls) = .error e b → b = after n calls
  finish : n ≤ Word.mostBytes → ∃ t, (after n calls).finish = .ok (some t) ∧
    Records n (calls.filter fun call => call.Accepted n) t
  overflow : Word.mostBytes < n → (after n calls).finish = .error .tooLarge

theorem recordsAccepted (n : ℕ) (calls : List (Call α)) : RecordsAccepted n calls where
  succeeds_iff := result_perform hzero n calls
  keeps _ _ _ := perform_keeps hzero n calls
  finish hn := ⟨_, (finish_after hzero n calls).trans (if_pos hn), records_steps n calls⟩
  overflow hn := (finish_after hzero n calls).trans (if_neg (by omega))

omit [Scalar α] hzero

/-- Of the calls on a new builder, in whatever order some succeed and some fail, the timeline has a column
for each that was accepted and nothing of the others. -/
theorem builder_records_accepted_calls :
    (∀ (n : ℕ) (calls : List (Call Float)), RecordsAccepted n calls) ∧
      ∀ (n : ℕ) (calls : List (Call ℝ)), RecordsAccepted n calls ∧
        (n ≤ Word.mostBytes → ∃ t, (after n calls).finish = .ok (some t) ∧
          t.durations = (calls.filter fun call => call.Accepted n).map Call.duration) := by
  refine ⟨recordsAccepted rfl, fun n calls => ⟨recordsAccepted rfl n calls, fun hn => ?_⟩⟩
  refine ⟨_, (finish_after rfl n calls).trans (if_pos hn), ?_⟩
  calc (Timeline.steps n (acceptedSegments n calls)).durations
      = (acceptedSegments n calls).map Prod.fst := Timeline.differences_accumulate _ _
    _ = (calls.filter fun call => call.Accepted n).map Call.duration := List.map_map

/-- A column that no array can hold is not driven, and with still more controls there is no timeline. -/
theorem builder_without_room :
    (Call.drive (Scalar.one : Float) []).Sound (2 ^ 60) ∧
      (Call.drive (Scalar.one : Float) []).perform.result (new (2 ^ 60)) = .error .tooLarge ∧
      (new (2 ^ 63) : HeldBuilder Float).finish = .error .tooLarge :=
  ⟨⟨rfl, by simp, by simp⟩, rfl, rfl⟩

end HeldBuilder
end QubitPulse
