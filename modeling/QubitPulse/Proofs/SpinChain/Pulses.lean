import Mathlib.Tactic.IntervalCases
import QubitPulse.Proofs.Gate.Forms
import QubitPulse.Proofs.SpinChain.Strengths
import QubitPulse.Proofs.Timeline.Decomposition
import QubitPulse.SpinChain.Basic

/-!
# Pulses of native gates

A native gate drives a single control. What it drives, and for which product of amplitude and duration,
is decided by the gate and the layout; the strengths decide only how the product is divided.
-/
namespace QubitPulse

open ChainContext (joins)

/-- The control that a native gate drives on a chain, and the area of its pulse, the product of
amplitude and duration. -/
inductive Pulse (n : ℕ) (couplings : List (ℕ × ℕ)) : Gate ℝ → ℕ → ℝ → Prop where
  | rx (q : Fin n) (θ : ℝ) : Pulse n couplings (.rx q θ) q (θ / 2)
  | rz (q : Fin n) (θ : ℝ) : Pulse n couplings (.rz q θ) (n + q) (θ / 2)
  | iSwap (q r : Fin n) (distinct : q ≠ r) (k : ℕ)
      (coupled : couplings.findIdx? (joins q r) = some k) :
      Pulse n couplings (.iSwap q r) (2 * n + k) (-(Real.pi / 4))
  | sqrtISwap (q r : Fin n) (distinct : q ≠ r) (k : ℕ)
      (coupled : couplings.findIdx? (joins q r) = some k) :
      Pulse n couplings (.sqrtISwap q r) (2 * n + k) (-(Real.pi / 8))

/-- A gate drives one control, for one area. -/
theorem Pulse.unique {n : ℕ} {couplings : List (ℕ × ℕ)} {g : Gate ℝ} {row row' : ℕ} {area area' : ℝ}
    (h : Pulse n couplings g row area) (h' : Pulse n couplings g row' area') :
    row = row' ∧ area = area' := by
  generalize hg : g = g' at h'
  cases h <;> cases h' <;> simp_all [Gate.rx, Gate.rz, Gate.iSwap, Gate.sqrtISwap]

/-- A segment of this duration drives one control with this amplitude. -/
def PulseBuilder.Drives (b b' : PulseBuilder ℝ) (row : ℕ) (duration amplitude : ℝ) : Prop :=
  row < b.numControls ∧ 0 ≤ duration ∧
    b' = { b with latest := (duration, columnOf b.numControls [(row, amplitude)]) :: b.latest }

theorem PulseBuilder.drives_of_drive {b b' : PulseBuilder ℝ} {row : ℕ} {duration amplitude : ℝ}
    (h : b.drive duration [(row, amplitude)] = .ok b') : b.Drives b' row duration amplitude := by
  obtain ⟨hrefusal, rfl⟩ := addSegment_eq_ok.mp (drive_eq_ok h)
  refine ⟨?_, by simpa using (refusal?_eq_none.mp hrefusal).1, rfl⟩
  obtain ⟨_, _, h⟩ := Result.bind_eq_ok.mp h
  split at h
  · cases h
  · next hnone => simpa using hnone

theorem PulseBuilder.exists_drive {b : PulseBuilder ℝ} {row : ℕ} {duration : ℝ} (amplitude : ℝ)
    (hroom : (Storage.reserve 1 [b.numControls] : Result ℝ Unit) = .ok ()) (hrow : row < b.numControls)
    (hduration : 0 ≤ duration) :
    ∃ b', b.drive duration [(row, amplitude)] = .ok b' ∧ b'.numControls = b.numControls := by
  have hrefusal : refusal? b.numControls duration (columnOf b.numControls [(row, amplitude)]) =
      none :=
    refusal?_eq_none.mpr ⟨by simpa using hduration, by simp [columnOf], fun _ _ => rfl⟩
  refine ⟨{ b with latest := (duration, columnOf b.numControls [(row, amplitude)]) :: b.latest },
    Result.bind_eq_ok.mpr ⟨(), hroom, ?_⟩, rfl⟩
  rw [List.find?_eq_none.mpr (by simpa using hrow)]
  exact addSegment_eq_ok.mpr ⟨hrefusal, rfl⟩

namespace ChainContext

variable {c : ChainContext ℝ} {b b' : PulseBuilder ℝ}

/-- A rotation is driven with the strength of its qubit, which cancels out of the area. -/
theorem drives_rotation {name : String} {control : ChainContext ℝ → ℕ → ℕ} {kind : GateKind}
    {q : ℕ} {θ : ℝ} (hc : c.strengths.Positive)
    (h : rotation name control c ⟨kind, [q], [], some θ⟩ b = .ok b') :
    ∃ duration amplitude, b.Drives b' (control c q) duration amplitude ∧ amplitude ≠ 0 ∧
      duration * amplitude = θ / 2 := by
  obtain ⟨_, hθ, h⟩ := Result.bind_eq_ok.mp h
  obtain rfl := Except.ok.inj hθ
  obtain ⟨_, hq, h⟩ := Result.bind_eq_ok.mp h
  obtain rfl := Except.ok.inj hq
  obtain ⟨_, _, h⟩ := Result.bind_eq_ok.mp h
  obtain ⟨s, hs, h⟩ := Result.bind_eq_ok.mp h
  have hpos : 0 < s := hc _ _ s hs
  have hsign : Scalar.signum θ ≠ 0 := by
    rw [Scalar.signum_real]
    split_ifs <;> simp
  refine ⟨_, _, PulseBuilder.drives_of_drive h, mul_ne_zero hpos.ne' hsign, ?_⟩
  calc Scalar.abs θ / (Scalar.two * s) * (s * Scalar.signum θ)
      = Scalar.abs θ * Scalar.signum θ / 2 := by
        rw [Scalar.two_real]
        field_simp
    _ = θ / 2 := by rw [Scalar.abs_mul_signum]

/-- An exchange is driven backwards with the strength of its pair, which cancels out of the area. -/
theorem drives_exchange (kind : GateKind) {q r : ℕ} {angle : ℝ} (hc : c.strengths.Positive)
    (h : exchange angle c ⟨kind, [q, r], [], none⟩ b = .ok b') :
    ∃ k, c.couplings.findIdx? (joins q r) = some k ∧
      ∃ duration amplitude, b.Drives b' (2 * c.numQubits + k) duration amplitude ∧ amplitude ≠ 0 ∧
        duration * amplitude = -angle := by
  obtain ⟨k, hk, h⟩ := Result.bind_eq_ok.mp h
  obtain ⟨s, hs, h⟩ := Result.bind_eq_ok.mp h
  have hpos : 0 < s := hc _ _ s hs
  refine ⟨k, ?_, _, _, PulseBuilder.drives_of_drive h, neg_ne_zero.mpr hpos.ne', ?_⟩
  · obtain ⟨_, _, hk⟩ := Result.bind_eq_ok.mp hk
    obtain ⟨_, _, hk⟩ := Result.bind_eq_ok.mp hk
    split at hk
    · next hfound => rw [hfound, Except.ok.inj hk]
    · cases hk
  · field_simp

section Success

variable (hroom : (Storage.reserve 1 [b.numControls] : Result ℝ Unit) = .ok ())
include hroom

theorem exists_rotation {name : String} {control : ChainContext ℝ → ℕ → ℕ} (kind : GateKind)
    {q : ℕ} (θ : ℝ) {s : ℝ} (hq : q < c.numQubits) (hs : c.strengths.valueAt name q = .ok s)
    (hpos : 0 < s) (hrow : control c q < b.numControls) :
    ∃ b', rotation name control c ⟨kind, [q], [], some θ⟩ b = .ok b' ∧
      b'.numControls = b.numControls := by
  have hduration : 0 ≤ Scalar.abs θ / (Scalar.two * s) := by
    rw [Scalar.abs_real, Scalar.two_real]
    positivity
  obtain ⟨b', hb, hn⟩ := PulseBuilder.exists_drive (s * Scalar.signum θ) hroom hrow hduration
  have hcheck : c.checkQubit q = .ok () := if_neg (not_le.mpr hq)
  exact ⟨b', Result.bind_eq_ok.mpr ⟨θ, rfl, Result.bind_eq_ok.mpr ⟨q, rfl,
    Result.bind_eq_ok.mpr ⟨(), hcheck, Result.bind_eq_ok.mpr ⟨s, hs, hb⟩⟩⟩⟩, hn⟩

theorem exists_exchange (kind : GateKind) {q r k : ℕ} {angle s : ℝ} (hq : q < c.numQubits)
    (hr : r < c.numQubits) (hk : c.couplings.findIdx? (joins q r) = some k) (hangle : 0 ≤ angle)
    (hs : c.strengths.valueAt "sxsy" k = .ok s) (hpos : 0 < s)
    (hrow : 2 * c.numQubits + k < b.numControls) :
    ∃ b', exchange angle c ⟨kind, [q, r], [], none⟩ b = .ok b' ∧
      b'.numControls = b.numControls := by
  obtain ⟨b', hb, hn⟩ := PulseBuilder.exists_drive (-s) hroom hrow
    (show 0 ≤ angle / s from div_nonneg hangle hpos.le)
  have hindex : c.couplingIndex q r = .ok k := by
    refine Result.bind_eq_ok.mpr ⟨(), if_neg (not_le.mpr hq), Result.bind_eq_ok.mpr
      ⟨(), if_neg (not_le.mpr hr), ?_⟩⟩
    rw [hk]
  exact ⟨b', Result.bind_eq_ok.mpr ⟨k, hindex, Result.bind_eq_ok.mpr ⟨s, hs, hb⟩⟩, hn⟩

end Success

end ChainContext

namespace SpinChain

variable {n numControls : ℕ} {couplings : List (ℕ × ℕ)} {strengths : ParameterTable ℝ}

/-- A gate that a chain accepts drives one control. -/
theorem drives_appendGate (hs : strengths.Positive) {g : Gate ℝ} (hg : Gate.OnRegister n g)
    {b b' : PulseBuilder ℝ}
    (h : (decomposerOf n numControls couplings strengths).appendGate b g = .ok b') :
    ∃ row area, Pulse n couplings g row area ∧
      ∃ duration amplitude, b.Drives b' row duration amplitude ∧ amplitude ≠ 0 ∧
        duration * amplitude = area := by
  cases hg with
  | rx q θ =>
    exact ⟨_, _, .rx q θ, ChainContext.drives_rotation hs h⟩
  | rz q θ =>
    exact ⟨_, _, .rz q θ, ChainContext.drives_rotation hs h⟩
  | iSwap q r distinct =>
    obtain ⟨k, hk, hdrives⟩ := ChainContext.drives_exchange .iSwap hs h
    exact ⟨_, _, .iSwap q r distinct k hk, hdrives⟩
  | sqrtISwap q r distinct =>
    obtain ⟨k, hk, hdrives⟩ := ChainContext.drives_exchange .sqrtISwap hs h
    exact ⟨_, _, .sqrtISwap q r distinct k hk, hdrives⟩
  | _ => cases h

/-- A gate that has a pulse on a chain is accepted, if there is room for its column. -/
theorem exists_appendGate (hs : strengths.Drives n couplings.length) {g : Gate ℝ} {row : ℕ} {area : ℝ}
    (h : Pulse n couplings g row area) {b : PulseBuilder ℝ}
    (hroom : (Storage.reserve 1 [b.numControls] : Result ℝ Unit) = .ok ())
    (hrow : row < b.numControls) :
    ∃ b', (decomposerOf n numControls couplings strengths).appendGate b g = .ok b' ∧
      b'.numControls = b.numControls := by
  cases h with
  | rx q θ =>
    obtain ⟨s, hvalue⟩ := hs.x q q.isLt
    exact ChainContext.exists_rotation hroom .rx θ q.isLt hvalue (hs.positive _ _ _ hvalue) hrow
  | rz q θ =>
    obtain ⟨s, hvalue⟩ := hs.z q q.isLt
    exact ChainContext.exists_rotation hroom .rz θ q.isLt hvalue (hs.positive _ _ _ hvalue) hrow
  | iSwap q r distinct k coupled =>
    obtain ⟨s, hvalue⟩ := hs.exchange k (List.findIdx?_eq_some_iff_getElem.mp coupled).1
    exact ChainContext.exists_exchange hroom .iSwap q.isLt r.isLt coupled
      (show 0 ≤ Real.pi / (4 : ℕ) by positivity) hvalue (hs.positive _ _ _ hvalue) hrow
  | sqrtISwap q r distinct k coupled =>
    obtain ⟨s, hvalue⟩ := hs.exchange k (List.findIdx?_eq_some_iff_getElem.mp coupled).1
    exact ChainContext.exists_exchange hroom .sqrtISwap q.isLt r.isLt coupled
      (show 0 ≤ Real.pi / (8 : ℕ) by positivity) hvalue (hs.positive _ _ _ hvalue) hrow

/-- A segment that drives one control as a native gate requires. -/
def Performs (n numControls : ℕ) (couplings : List (ℕ × ℕ)) (segment : ℝ × List ℝ) (g : Gate ℝ) :
    Prop :=
  ∃ row area, Pulse n couplings g row area ∧ row < numControls ∧
    ∃ duration amplitude, 0 ≤ duration ∧ amplitude ≠ 0 ∧ duration * amplitude = area ∧
      segment = (duration, PulseBuilder.columnOf numControls [(row, amplitude)])

/-- Gates append one segment each, in their order. -/
theorem performs_foldlM (hs : strengths.Positive) {gates : List (Gate ℝ)}
    (hgates : ∀ g ∈ gates, Gate.OnRegister n g) {b b' : PulseBuilder ℝ}
    (hb : b.numControls = numControls)
    (h : gates.foldlM (decomposerOf n numControls couplings strengths).appendGate b = .ok b') :
    b'.numControls = numControls ∧ ∃ segments, b'.segments = b.segments ++ segments ∧
      List.Forall₂ (Performs n numControls couplings) segments gates := by
  induction gates generalizing b with
  | nil =>
    cases h
    exact ⟨hb, [], by simp, .nil⟩
  | cons g gates ih =>
    obtain ⟨b₁, hfirst, hrest⟩ := Result.bind_eq_ok.mp h
    obtain ⟨row, area, hpulse, duration, amplitude, ⟨hrow, hduration, hnext⟩, hamplitude, harea⟩ :=
      drives_appendGate hs (hgates g (by simp)) hfirst
    have hb₁ : b₁.numControls = numControls := by rw [hnext, hb]
    obtain ⟨hn, segments, hsegments, hperforms⟩ :=
      ih (fun g hg => hgates g (by simp [hg])) hb₁ hrest
    subst hb
    refine ⟨hn, (duration, PulseBuilder.columnOf b.numControls [(row, amplitude)]) :: segments, ?_,
      .cons ⟨row, area, hpulse, hrow, duration, amplitude, hduration, hamplitude, harea, rfl⟩
        hperforms⟩
    rw [hsegments, hnext]
    simp [PulseBuilder.segments]

/-- The timeline of a gate list has one segment for every gate. -/
theorem performs_decompose (hs : strengths.Positive) {gates : List (Gate ℝ)}
    (hgates : ∀ g ∈ gates, Gate.OnRegister n g) {t : Timeline ℝ}
    (h : (decomposerOf n numControls couplings strengths).decompose gates = .ok t) :
    ∃ segments, List.Forall₂ (Performs n numControls couplings) segments gates ∧
      t = .steps numControls segments := by
  obtain ⟨b, hfold, hfinish⟩ := Result.bind_eq_ok.mp h
  obtain ⟨hn, segments, hsegments, hperforms⟩ := performs_foldlM hs hgates rfl hfold
  refine ⟨segments, hperforms, ?_⟩
  rw [Timeline.ofSegments_eq_ok hfinish, hn, hsegments]
  rfl

section Success

variable (hs : strengths.Drives n couplings.length) (hsize : numControls ≤ 3 * mostQubits)
  {gates : List (Gate ℝ)}
  (h : ∀ g ∈ gates, ∃ row area, Pulse n couplings g row area ∧ row < numControls)
include hs hsize h

/-- Gates that have pulses on a chain are accepted one after the other. -/
theorem exists_foldlM {b : PulseBuilder ℝ} (hb : b.numControls = numControls) :
    ∃ b', gates.foldlM (decomposerOf n numControls couplings strengths).appendGate b = .ok b' ∧
      b'.numControls = numControls := by
  have hroom : (Storage.reserve 1 [numControls] : Result ℝ Unit) = .ok () := Storage.reserve_few hsize
  induction gates generalizing b with
  | nil => exact ⟨b, rfl, hb⟩
  | cons g gates ih =>
    subst hb
    obtain ⟨row, area, hpulse, hrow⟩ := h g (by simp)
    obtain ⟨b₁, hfirst, hn⟩ := exists_appendGate hs hpulse hroom hrow
    obtain ⟨b', hrest, hn'⟩ := ih (fun g hg => h g (by simp [hg])) hn
    exact ⟨b', Result.bind_eq_ok.mpr ⟨b₁, hfirst, hrest⟩, hn'⟩

omit hs h in
/-- The controls of a chain are few enough for a timeline to be stored. -/
theorem exists_finish {b : PulseBuilder ℝ} (hb : b.numControls = numControls) :
    ∃ t, b.finish = .ok t := by
  have hsmall : numControls ≤ 24 := hsize
  have hroom : b.numControls ≤ Word.mostBytes := hb ▸ hsmall.trans (by decide)
  exact ⟨_, (Timeline.ofSegments_eq _ _).trans (if_pos hroom)⟩

/-- Gates that have pulses on a chain have a timeline. -/
theorem exists_decompose :
    ∃ t, (decomposerOf n numControls couplings strengths).decompose gates = .ok t := by
  obtain ⟨b', hgates, hn⟩ := exists_foldlM hs hsize h
    (show (PulseBuilder.new numControls).numControls = numControls from rfl)
  obtain ⟨t, ht⟩ := exists_finish hsize hn
  exact ⟨t, Result.bind_eq_ok.mpr ⟨b', hgates, ht⟩⟩

end Success

end SpinChain
end QubitPulse
