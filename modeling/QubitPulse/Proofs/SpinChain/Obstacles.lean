import QubitPulse.Processor.Basic
import QubitPulse.Proofs.Gate.Expansion
import QubitPulse.Proofs.SpinChain.Pulses

/-!
# Gates that a chain cannot drive

A well-formed gate has no pulses on a chain for two reasons only: it entangles a pair in a way that no
control does, or it is an exchange of a pair that is not coupled. Every other gate is replaced by native
gates that all have pulses.
-/
namespace QubitPulse

open Processor (drivenGates)

/-- The couplings join two qubits, in either order. -/
def Coupled (couplings : List (ℕ × ℕ)) (q r : ℕ) : Prop :=
  (q, r) ∈ couplings ∨ (r, q) ∈ couplings

instance (couplings : List (ℕ × ℕ)) (q r : ℕ) : Decidable (Coupled couplings q r) :=
  inferInstanceAs (Decidable (_ ∨ _))

theorem isSome_findIdx?_joins {couplings : List (ℕ × ℕ)} {q r : ℕ} :
    (couplings.findIdx? (ChainContext.joins q r)).isSome = true ↔ Coupled couplings q r := by
  simp only [List.findIdx?_isSome, List.any_eq_true, ChainContext.joins, Bool.or_eq_true,
    decide_eq_true_eq, Coupled]
  constructor
  · rintro ⟨_, hmem, rfl | rfl⟩
    · exact .inl hmem
    · exact .inr hmem
  · rintro (hmem | hmem)
    · exact ⟨_, hmem, .inl rfl⟩
    · exact ⟨_, hmem, .inr rfl⟩

/-- Why a chain with these couplings has no pulses for a well-formed gate, if it has none. -/
def Gate.obstacle? {α : Type} (couplings : List (ℕ × ℕ)) (g : Gate α) : Option (Error α) :=
  match g.kind, g.targets with
  | .cnot, _ | .cz, _ | .swap, _ => some (.unsupportedGate g.name)
  | .iSwap, [q, r] | .sqrtISwap, [q, r] =>
    if Coupled couplings q r then none else some (.topologyViolation q r)
  | _, _ => none

/-- Nothing is in the way of a well-formed gate exactly if a chain has its kind and couples its pair. -/
theorem Gate.obstacle?_eq_none {α : Type} {n : ℕ} {couplings : List (ℕ × ℕ)} {g : Gate α}
    (h : OnRegister n g) :
    g.obstacle? couplings = none ↔ (g.kind ≠ .cnot ∧ g.kind ≠ .cz ∧ g.kind ≠ .swap) ∧
      (g.kind = .iSwap ∨ g.kind = .sqrtISwap → ∀ q r, g.targets = [q, r] →
        Coupled couplings q r) := by
  cases h <;>
    simp [obstacle?, rx, ry, rz, x, y, z, Gate.h, cnot, cz, swap, iSwap, sqrtISwap, globalPhase]

namespace SpinChain

variable {n numControls : ℕ} {couplings : List (ℕ × ℕ)} {strengths : ParameterTable ℝ}

/-- An exchange of a pair that is not coupled is refused, with the pair in the order of the gate. -/
theorem exchange_eq_error (angle : ℝ) (kind : GateKind) {c : ChainContext ℝ} {q r : ℕ}
    (hq : q < c.numQubits) (hr : r < c.numQubits) (h : ¬Coupled c.couplings q r) (b : PulseBuilder ℝ) :
    ChainContext.exchange angle c ⟨kind, [q, r], [], none⟩ b = .error (.topologyViolation q r) := by
  have hnone : c.couplings.findIdx? (ChainContext.joins q r) = none := by
    rw [← Option.not_isSome_iff_eq_none]
    exact mt isSome_findIdx?_joins.mp h
  have hindex : c.couplingIndex q r = .error (.topologyViolation q r) := by
    unfold ChainContext.couplingIndex ChainContext.checkQubit
    rw [if_neg (not_le.mpr hq), if_neg (not_le.mpr hr), Result.ok_bind, Result.ok_bind, hnone]
  unfold ChainContext.exchange
  simp only [hindex]
  rfl

/-- A gate has a pulse on one of the controls of a chain. -/
def HasPulse (n : ℕ) (couplings : List (ℕ × ℕ)) (g : Gate ℝ) : Prop :=
  ∃ row area, Pulse n couplings g row area ∧ row < 2 * n + couplings.length

theorem hasPulse_rx (q : Fin n) (θ : ℝ) : HasPulse n couplings (.rx q θ) :=
  ⟨_, _, .rx q θ, by omega⟩

theorem hasPulse_rz (q : Fin n) (θ : ℝ) : HasPulse n couplings (.rz q θ) :=
  ⟨_, _, .rz q θ, by omega⟩

theorem exists_coupling {q r : ℕ} (h : Coupled couplings q r) :
    ∃ k, couplings.findIdx? (ChainContext.joins q r) = some k ∧ k < couplings.length := by
  obtain ⟨k, hk⟩ := Option.isSome_iff_exists.mp (isSome_findIdx?_joins.mpr h)
  exact ⟨k, hk, (List.findIdx?_eq_some_iff_getElem.mp hk).1⟩

theorem hasPulse_ryAsRx (q : Fin n) (θ : ℝ) : ∀ g ∈ Gate.ryAsRx (q : ℕ) θ, HasPulse n couplings g := by
  simp [Gate.ryAsRx, hasPulse_rx, hasPulse_rz]

/-- The exchange of a pair is driven if the pair is coupled, and refused if it is not. -/
theorem pulse_or_violation {g : Gate ℝ} {q r : Fin n} {area angle : ℝ}
    (hpulse : ∀ k, couplings.findIdx? (ChainContext.joins q r) = some k →
      Pulse n couplings g (2 * n + k) area)
    (hobstacle : g.obstacle? couplings =
      if Coupled couplings q r then none else some (.topologyViolation q r))
    (happend : ∀ b, (decomposerOf n numControls couplings strengths).appendGate b g =
      ChainContext.exchange angle ⟨n, couplings, strengths⟩ ⟨g.kind, [q, r], [], none⟩ b) :
    (g.obstacle? couplings = none ∧ ∀ g' ∈ [g], HasPulse n couplings g') ∨
    ∃ e, g.obstacle? couplings = some e ∧ ∀ b, [g].foldlM
      (decomposerOf n numControls couplings strengths).appendGate b = .error e := by
  rw [hobstacle]
  by_cases h : Coupled couplings q r
  · obtain ⟨k, hk, hlt⟩ := exists_coupling h
    exact .inl ⟨if_pos h, List.forall_mem_singleton.mpr ⟨_, _, hpulse k hk, by omega⟩⟩
  · refine .inr ⟨_, if_neg h, fun b => ?_⟩
    have hfirst : (decomposerOf n numControls couplings strengths).appendGate b g =
        .error (.topologyViolation q r) :=
      (happend b).trans (exchange_eq_error angle g.kind q.isLt r.isLt h b)
    rw [List.foldlM_cons, hfirst]
    rfl

/-- Either all driven gates of a well-formed gate have pulses, or they are refused for its obstacle. -/
theorem pulses_or_obstacle {g : Gate ℝ} (hg : Gate.OnRegister n g) {native : List (Gate ℝ)}
    (hnative : g.expand = .ok native) :
    (g.obstacle? couplings = none ∧ ∀ g' ∈ drivenGates native, HasPulse n couplings g') ∨
    ∃ e, g.obstacle? couplings = some e ∧ ∀ b, (drivenGates native).foldlM
      (decomposerOf n numControls couplings strengths).appendGate b = .error e := by
  cases hg <;> obtain rfl := Except.ok.inj hnative
  case cnot | cz | swap => exact .inr ⟨_, rfl, fun b => rfl⟩
  case iSwap q r distinct =>
    exact pulse_or_violation (fun k => .iSwap q r distinct k) rfl fun _ => rfl
  case sqrtISwap q r distinct =>
    exact pulse_or_violation (fun k => .sqrtISwap q r distinct k) rfl fun _ => rfl
  case rx q θ => exact .inl ⟨rfl, List.forall_mem_singleton.mpr (hasPulse_rx q θ)⟩
  case rz q θ => exact .inl ⟨rfl, List.forall_mem_singleton.mpr (hasPulse_rz q θ)⟩
  case x q => exact .inl ⟨rfl, List.forall_mem_singleton.mpr (hasPulse_rx q _)⟩
  case z q => exact .inl ⟨rfl, List.forall_mem_singleton.mpr (hasPulse_rz q _)⟩
  case y q => exact .inl ⟨rfl, hasPulse_ryAsRx q _⟩
  case ry q θ => exact .inl ⟨rfl, hasPulse_ryAsRx q θ⟩
  case h q =>
    exact .inl ⟨rfl, List.forall_mem_append.mpr
      ⟨hasPulse_ryAsRx q _, List.forall_mem_singleton.mpr (hasPulse_rx q _)⟩⟩
  case globalPhase φ => exact .inl ⟨rfl, nofun⟩

/-- Gates without an obstacle are driven one after the other; the first obstacle ends the compilation. -/
theorem foldlM_or_obstacle (hs : strengths.Drives n couplings.length)
    (hcontrols : numControls = 2 * n + couplings.length) (hsize : numControls ≤ 3 * mostQubits)
    {gates native : List (Gate ℝ)} (h : ∀ g ∈ gates, Gate.OnRegister n g)
    (hnative : Gate.resolveAll gates = .ok native) {b : PulseBuilder ℝ}
    (hb : b.numControls = numControls) :
    (gates.findSome? (Gate.obstacle? couplings) = none ∧ ∃ b', (drivenGates native).foldlM
      (decomposerOf n numControls couplings strengths).appendGate b = .ok b' ∧
        b'.numControls = numControls) ∨
    ∃ e, gates.findSome? (Gate.obstacle? couplings) = some e ∧ (drivenGates native).foldlM
      (decomposerOf n numControls couplings strengths).appendGate b = .error e := by
  subst hcontrols
  obtain ⟨parts, hparts, rfl⟩ := Result.map_eq_ok.mp hnative
  have hpieces := Result.mapM_eq_ok.mp hparts
  clear hnative hparts
  induction hpieces generalizing b with
  | nil => exact .inl ⟨rfl, b, rfl, hb⟩
  | @cons g part gates parts hpart _ ih =>
    obtain ⟨_, _, hexpand⟩ := Result.bind_eq_ok.mp hpart
    have hsplit : drivenGates (part :: parts).flatten =
        drivenGates part ++ drivenGates parts.flatten :=
      List.filter_append part parts.flatten
    rw [hsplit, List.foldlM_append, List.findSome?_cons]
    rcases pulses_or_obstacle (h g (by simp)) hexpand with ⟨hfree, hpulses⟩ | ⟨e, he, hrefused⟩
    · obtain ⟨b₁, hfirst, hb₁⟩ := exists_foldlM hs hsize hpulses hb
      rw [hfirst, hfree, Result.ok_bind]
      exact ih (fun g hg => h g (by simp [hg])) hb₁
    · rw [hrefused, he]
      exact .inr ⟨e, rfl, rfl⟩

/-- The compilation of well-formed gates fails with the first obstacle among them, or not at all. -/
theorem error?_decompose (hs : strengths.Drives n couplings.length)
    (hcontrols : numControls = 2 * n + couplings.length) (hsize : numControls ≤ 3 * mostQubits)
    {gates native : List (Gate ℝ)} (h : ∀ g ∈ gates, Gate.OnRegister n g)
    (hnative : Gate.resolveAll gates = .ok native) :
    Result.error? ((decomposerOf n numControls couplings strengths).decompose (drivenGates native)) =
      gates.findSome? (Gate.obstacle? couplings) := by
  unfold Decomposer.decompose
  rcases foldlM_or_obstacle hs hcontrols hsize h hnative
    (show (PulseBuilder.new numControls).numControls = numControls from rfl)
    with ⟨hfree, b, hfold, hb⟩ | ⟨e, he, hfold⟩
  · obtain ⟨t, ht⟩ := exists_finish hsize hb
    rw [hfree]
    exact Result.error?_eq_none.mpr ⟨t, Result.bind_eq_ok.mpr ⟨b, hfold, ht⟩⟩
  · rw [he, show (decomposerOf n numControls couplings strengths).numControls = numControls from rfl,
      hfold]
    rfl

end SpinChain
end QubitPulse
