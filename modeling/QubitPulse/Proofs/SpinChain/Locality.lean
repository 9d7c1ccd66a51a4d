import QubitPulse.Proofs.Evolution.Composition
import QubitPulse.Proofs.Exact.Locality

/-!
# Pulses act on the qubits of their gate

The control that a native gate drives is made of matrices on the qubits of the gate, and the computed
exponential of a matrix lies in every algebra in which the matrix lies. So what a gate does, it does on
its own qubits, with the truncation and the squaring of its exponential.
-/
namespace QubitPulse

open AnalyticalEvolution (segmentPropagator)

/-- The qubits of a register that a gate acts on. -/
def Gate.support {α : Type} (n : ℕ) (g : Gate α) : Set (Fin n) := {q | (q : ℕ) ∈ g.qubits}

theorem Gate.support_subset {α : Type} {n : ℕ} {g g' : Gate α} (h : g'.qubits ⊆ g.qubits) :
    g'.support n ⊆ g.support n :=
  fun _ hq => h hq

theorem Gate.disjoint_support {α : Type} {n : ℕ} {g h : Gate α} (hd : g.qubits.Disjoint h.qubits) :
    Disjoint (g.support n) (h.support n) :=
  Set.disjoint_left.mpr fun _ hg hh => hd hg hh

namespace SpinChain

variable {n : ℕ} {couplings : List (ℕ × ℕ)}

/-- The control of a pulse acts on the qubits of the gate. -/
theorem exists_control_of_pulse {g : Gate ℝ} {row : ℕ} {area : ℝ} (h : Pulse n couplings g row area) :
    ∃ H ∈ actingOn (g.support n), (controlMatrices n couplings)[row]? = some H := by
  cases h with
  | rx q θ =>
    exact ⟨_, onQubit_mem_actingOn (by simp [Gate.support, Gate.rx, Gate.qubits]) _,
      controlMatrices_x q⟩
  | rz q θ =>
    exact ⟨_, onQubit_mem_actingOn (by simp [Gate.support, Gate.rz, Gate.qubits]) _,
      controlMatrices_z q⟩
  | iSwap q r distinct k coupled =>
    exact ⟨_, onPair_mem_actingOn distinct (by simp [Gate.support, Gate.iSwap, Gate.qubits])
      (by simp [Gate.support, Gate.iSwap, Gate.qubits]) _, controlMatrices_exchange coupled⟩
  | sqrtISwap q r distinct k coupled =>
    exact ⟨_, onPair_mem_actingOn distinct (by simp [Gate.support, Gate.sqrtISwap, Gate.qubits])
      (by simp [Gate.support, Gate.sqrtISwap, Gate.qubits]) _, controlMatrices_exchange coupled⟩

variable {controls : List (ControlOperator ℝ)}

/-- A segment that performs a gate is propagated by a matrix on the qubits of the gate. -/
theorem exists_segmentPropagator (hcontrols : ControlsAct controls (controlMatrices n couplings))
    {s : ℝ × List ℝ} {g : Gate ℝ} (h : Performs n controls.length couplings s g) :
    ∃ u, segmentPropagator Operator.propagator controls (registerDim n) s = .ok u ∧
      ∃ U ∈ actingOn (g.support n), u.ActsAs U := by
  obtain ⟨row, area, hpulse, -, duration, amplitude, -, -, -, rfl⟩ := h
  obtain ⟨H, hmem, hH⟩ := exists_control_of_pulse hpulse
  have hgenerator := (weightedSum_columnOf hcontrols hH amplitude).scale ⟨Scalar.zero, -duration⟩
  exact Operator.exp_mem hgenerator (Subalgebra.smul_mem _ (Subalgebra.smul_mem _ hmem _) _)

/-- Segments that perform gates on a set of qubits are propagated by matrices on the set. -/
theorem exists_propagators (hcontrols : ControlsAct controls (controlMatrices n couplings))
    {segments : List (ℝ × List ℝ)} {gates : List (Gate ℝ)}
    (h : List.Forall₂ (Performs n controls.length couplings) segments gates) {S : Set (Fin n)}
    (hS : ∀ g ∈ gates, g.support n ⊆ S) :
    ∃ us Us, segments.mapM (segmentPropagator Operator.propagator controls (registerDim n)) = .ok us ∧
      List.Forall₂ Operator.ActsAs us Us ∧ ∀ U ∈ Us, U ∈ actingOn S := by
  induction h with
  | nil => exact ⟨[], [], rfl, .nil, nofun⟩
  | cons hs _ ih =>
    obtain ⟨hg, hrest⟩ := List.forall_mem_cons.mp hS
    obtain ⟨u, hu, U, hU, hacts⟩ := exists_segmentPropagator hcontrols hs
    obtain ⟨us, Us, hus, hactsAll, hUs⟩ := ih hrest
    exact ⟨u :: us, U :: Us, Result.mapM_eq_ok.mpr (.cons hu (Result.mapM_eq_ok.mp hus)),
      .cons hacts hactsAll, List.forall_mem_cons.mpr ⟨actingOn_mono hg hU, hUs⟩⟩

end SpinChain
end QubitPulse
