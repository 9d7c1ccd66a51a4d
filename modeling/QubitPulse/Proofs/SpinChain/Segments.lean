import QubitPulse.Proofs.SpinChain.Build
import QubitPulse.Proofs.Timeline.Decomposition

/-!
# Segments of gates

What a gate appends to a timeline depends on the gate and the device alone, not on what was appended
before. So the segments of a gate list are those of its gates one after the other, and a list that is
put together of two has the segments of the first followed by those of the second.
-/
namespace QubitPulse

namespace PulseBuilder

variable {α : Type}

/-- The builder with the segments of another one after its own. -/
def append (b s : PulseBuilder α) : PulseBuilder α := { b with latest := s.latest ++ b.latest }

theorem drive_uniform [Scalar α] (b : PulseBuilder α) (duration : α) (amplitudes : List (ℕ × α)) :
    b.drive duration amplitudes =
      ((new b.numControls).drive duration amplitudes).map b.append := by
  unfold drive addSegment
  simp only [show (new b.numControls : PulseBuilder α).numControls = b.numControls from rfl]
  cases (Storage.reserve 1 [b.numControls] : Result α Unit) with
  | error e => rfl
  | ok _ =>
    rw [Result.ok_bind, Result.ok_bind]
    cases amplitudes.find? fun p => b.numControls ≤ p.1 with
    | some p => rfl
    | none =>
      simp only
      cases refusal? b.numControls duration (columnOf b.numControls amplitudes) <;> rfl

end PulseBuilder

/-- Every handler appends the same segments to all builders for as many controls. -/
def Registry.Uniform {π α : Type} (r : Registry π α) : Prop :=
  ∀ kind handler, r.handler? kind = some handler → ∀ context g b,
    handler context g b = (handler context g (.new b.numControls)).map b.append

namespace Decomposer

variable {π α : Type} {d : Decomposer π α}

def gateSegments (d : Decomposer π α) (g : Gate α) : Result α (List (α × List α)) :=
  (d.appendGate (.new d.numControls) g).map PulseBuilder.segments

/-- The segments of the gates of a list, one after the other. -/
def segments (d : Decomposer π α) (gates : List (Gate α)) : Result α (List (α × List α)) :=
  (gates.mapM d.gateSegments).map List.flatten

theorem appendGate_eq (hd : d.registry.Uniform) {b : PulseBuilder α}
    (hb : b.numControls = d.numControls) (g : Gate α) :
    d.appendGate b g = (d.gateSegments g).map fun ss => { b with latest := ss.reverse ++ b.latest } := by
  unfold gateSegments appendGate
  cases hhandler : d.registry.handler? g.kind with
  | none => rfl
  | some handler =>
    simp only
    rw [hd _ _ hhandler, hb]
    cases handler d.context g (.new d.numControls) with
    | error e => rfl
    | ok s => simp [Except.map, PulseBuilder.append, PulseBuilder.segments, hb]

theorem foldlM_appendGate (hd : d.registry.Uniform) (gates : List (Gate α)) {b : PulseBuilder α}
    (hb : b.numControls = d.numControls) :
    gates.foldlM d.appendGate b =
      (d.segments gates).map fun ss => { b with latest := ss.reverse ++ b.latest } := by
  induction gates generalizing b with
  | nil => rfl
  | cons g gates ih =>
    rw [List.foldlM_cons, appendGate_eq hd hb, segments, List.mapM_cons]
    cases d.gateSegments g with
    | error e => rfl
    | ok ss =>
      have hrest := ih (b := { b with latest := ss.reverse ++ b.latest }) hb
      rw [Except.map, Result.ok_bind, Result.ok_bind, hrest, segments]
      cases gates.mapM d.gateSegments with
      | error e => rfl
      | ok rest => simp [Except.map, pure, Except.pure, bind, Except.bind]

variable [Scalar α]

/-- A decomposition is the timeline of the segments of its gates. -/
theorem decompose_eq (hd : d.registry.Uniform) (gates : List (Gate α)) :
    d.decompose gates = (d.segments gates >>= Timeline.ofSegments d.numControls) := by
  have hnew : (PulseBuilder.new d.numControls : PulseBuilder α).numControls = d.numControls := rfl
  unfold decompose
  rw [foldlM_appendGate hd gates hnew]
  cases d.segments gates with
  | error e => rfl
  | ok ss =>
    change Timeline.ofSegments _ (PulseBuilder.segments _) = Timeline.ofSegments _ _
    simp [PulseBuilder.segments, PulseBuilder.new]

omit [Scalar α] in
theorem segments_append (gates gates' : List (Gate α)) :
    d.segments (gates ++ gates') = do
      let ss ← d.segments gates
      let ss' ← d.segments gates'
      return ss ++ ss' := by
  unfold segments
  rw [List.mapM_append]
  cases gates.mapM d.gateSegments with
  | error e => rfl
  | ok xs =>
    cases gates'.mapM d.gateSegments with
    | error e => rfl
    | ok ys => exact congrArg Except.ok List.flatten_append

/-- Segments of gates were checked as they were appended. -/
theorem refusal?_of_segments (hd : d.registry.Uniform) (hd' : d.registry.Appends)
    {gates : List (Gate α)} {ss : List (α × List α)} (h : d.segments gates = .ok ss) :
    ∀ s ∈ ss, PulseBuilder.refusal? d.numControls s.1 s.2 = none := by
  have hfold := foldlM_appendGate hd gates
    (show (PulseBuilder.new d.numControls : PulseBuilder α).numControls = d.numControls from rfl)
  rw [h] at hfold
  obtain ⟨hchecked, -⟩ := checked_foldlM hd' gates (fun s hs => by cases hs) hfold
  intro s hs
  exact hchecked s (by simpa [PulseBuilder.new] using hs)

/-- Segments of gates have a coefficient for every control. -/
theorem length_of_segments (hd : d.registry.Uniform) (hd' : d.registry.Appends)
    {gates : List (Gate α)} {ss : List (α × List α)} (h : d.segments gates = .ok ss) :
    ∀ s ∈ ss, s.2.length = d.numControls := fun s hs =>
  (PulseBuilder.refusal?_eq_none.mp (refusal?_of_segments hd hd' h s hs)).2.1

end Decomposer

namespace ChainContext

variable {α : Type} [Scalar α]

theorem handler?_registry {kind : GateKind}
    {handler : GateHandler (ChainContext α) α} (h : registry.handler? kind = some handler) :
    (∃ name control, handler = rotation name control) ∨ ∃ angle, handler = exchange angle := by
  simp only [registry, Registry.register, Registry.empty] at h
  split_ifs at h <;> cases h
  · exact .inr ⟨_, rfl⟩
  · exact .inr ⟨_, rfl⟩
  · exact .inl ⟨_, _, rfl⟩
  · exact .inl ⟨_, _, rfl⟩

/-- The handlers of a chain drive controls and do nothing else. -/
theorem registry_appends : Registry.Appends (registry : Registry _ α) := by
  intro kind handler hkind c g b b' h
  rcases handler?_registry hkind with ⟨name, control, rfl⟩ | ⟨angle, rfl⟩
  · obtain ⟨theta, _, h⟩ := Result.bind_eq_ok.mp h
    obtain ⟨q, _, h⟩ := Result.bind_eq_ok.mp h
    obtain ⟨_, _, h⟩ := Result.bind_eq_ok.mp h
    obtain ⟨s, _, h⟩ := Result.bind_eq_ok.mp h
    exact .drive _ _ h (.refl _)
  · unfold exchange at h
    split at h
    · obtain ⟨k, _, h⟩ := Result.bind_eq_ok.mp h
      obtain ⟨s, _, h⟩ := Result.bind_eq_ok.mp h
      exact .drive _ _ h (.refl _)
    · cases h

/-- The handlers of a chain do not look at what was driven before. -/
theorem registry_uniform : Registry.Uniform (registry : Registry _ α) := by
  intro kind handler hkind c g b
  rcases handler?_registry hkind with ⟨name, control, rfl⟩ | ⟨angle, rfl⟩
  · unfold rotation
    simp only [Result.map_bind]
    refine bind_congr fun theta => bind_congr fun q => bind_congr fun _ => bind_congr fun s => ?_
    exact b.drive_uniform _ _
  · unfold exchange
    split
    · simp only [Result.map_bind]
      refine bind_congr fun k => bind_congr fun s => ?_
      exact b.drive_uniform _ _
    · rfl

end ChainContext

namespace SpinChain

variable {α : Type} [Scalar α] {n : ℕ} {layout : ChainLayout} {given : ChainStrengths α}
  {c : SpinChain α}

theorem registry_of_build (h : build n layout given = .ok c) :
    c.decomposer.registry = ChainContext.registry := by
  obtain ⟨-, -, _, _, -, -, rfl⟩ := build_eq_ok.mp h
  rfl

theorem appends_of_build (h : build n layout given = .ok c) : c.decomposer.registry.Appends :=
  registry_of_build h ▸ ChainContext.registry_appends

theorem uniform_of_build (h : build n layout given = .ok c) : c.decomposer.registry.Uniform :=
  registry_of_build h ▸ ChainContext.registry_uniform

/-- The timeline of gates has a row for every control. -/
theorem numControls_of_decompose (h : build n layout given = .ok c) {gates : List (Gate α)}
    {t : Timeline α} (ht : c.decomposer.decompose gates = .ok t) :
    t.numControls = c.controls.length := by
  rw [Decomposer.decompose_eq (uniform_of_build h), Result.bind_eq_ok] at ht
  obtain ⟨ss, -, ht⟩ := ht
  rw [Timeline.ofSegments_eq_ok ht]
  exact numControls_of_build h

end SpinChain
end QubitPulse
