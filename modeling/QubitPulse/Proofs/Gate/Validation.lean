import Mathlib.Data.List.Nodup
import QubitPulse.Circuit.Basic
import QubitPulse.Proofs.Result

/-!
# What the checks of gates accept

The check of a gate accepts exactly the well-formed ones, and the check of a register those of them that
act on its qubits.
-/
namespace QubitPulse.Gate

theorem firstRepeated?_eq_none {qs : List ℕ} : firstRepeated? qs = none ↔ qs.Nodup := by
  induction qs with
  | nil => simp [firstRepeated?]
  | cons q qs ih =>
    rw [firstRepeated?, List.nodup_cons, ← ih]
    by_cases h : q ∈ qs <;> simp [h]

variable {α : Type} [Scalar α]

/-- A gate with the qubits and the angle of its kind: the angle is finite, and no qubit occurs twice. -/
structure WellFormed (g : Gate α) : Prop where
  targets : g.targets.length = g.kind.numTargets
  controls : g.controls.length = g.kind.numControls
  angle : g.angle.isSome = g.kind.takesAngle
  finite : ∀ a ∈ g.angle, Scalar.isFinite a = true
  distinct : g.qubits.Nodup

/-- A well-formed gate on qubits of a register. -/
structure Fits (numQubits : ℕ) (g : Gate α) : Prop extends WellFormed g where
  inRange : ∀ q ∈ g.qubits, q < numQubits

theorem angleFault?_eq_none {g : Gate α} : g.angleFault? = none ↔
    g.angle.isSome = g.kind.takesAngle ∧ ∀ a ∈ g.angle, Scalar.isFinite a = true := by
  unfold angleFault?
  cases g.kind.takesAngle <;> cases g.angle <;> simp

theorem validate_eq_ok {g : Gate α} : g.validate = .ok () ↔ g.WellFormed := by
  have hfault : g.validate = .ok () ↔ g.firstFault? = none := by
    unfold validate
    cases g.firstFault? <;> simp
  rw [hfault]
  unfold firstFault?
  constructor
  · intro h
    split_ifs at h with htargets hcontrols
    split at h
    · cases h
    · next hangle =>
      obtain ⟨hsome, hfinite⟩ := angleFault?_eq_none.mp hangle
      exact ⟨not_not.mp htargets, not_not.mp hcontrols, hsome, hfinite,
        firstRepeated?_eq_none.mp (Option.map_eq_none_iff.mp h)⟩
  · intro h
    rw [if_neg (not_not.mpr h.targets), if_neg (not_not.mpr h.controls),
      angleFault?_eq_none.mpr ⟨h.angle, h.finite⟩, firstRepeated?_eq_none.mpr h.distinct]
    rfl

theorem checkGate_eq_ok {n : ℕ} {g : Gate α} :
    Circuit.checkGate n g = .ok () ↔ g.validate = .ok () ∧ ∀ q ∈ g.qubits, q < n := by
  have hrange : g.qubits.find? (n ≤ ·) = none ↔ ∀ q ∈ g.qubits, q < n := by simp
  rw [← hrange]
  constructor
  · intro h
    obtain ⟨_, hvalid, h⟩ := Result.bind_eq_ok.mp h
    split at h
    · cases h
    · next hnone => exact ⟨hvalid, hnone⟩
  · rintro ⟨hvalid, hnone⟩
    exact Result.bind_eq_ok.mpr ⟨(), hvalid, by rw [hnone]⟩

/-- The check of a register accepts the well-formed gates on its qubits. -/
theorem checkGate_eq_ok_iff_fits {n : ℕ} {g : Gate α} :
    Circuit.checkGate n g = .ok () ↔ g.Fits n := by
  rw [checkGate_eq_ok, validate_eq_ok]
  exact ⟨fun ⟨hformed, hrange⟩ => ⟨hformed, hrange⟩, fun h => ⟨h.toWellFormed, h.inRange⟩⟩

end QubitPulse.Gate
