import Mathlib.Logic.Basic
import QubitPulse.Proofs.Result
import QubitPulse.SpinChain.Basic

/-!
# Chains as they are built
-/
namespace QubitPulse.SpinChain

variable {α : Type} [Scalar α]

variable {n : Nat} {layout : ChainLayout} {given given' : ChainStrengths α} {c c' : SpinChain α}

/-- A chain is built of its strengths in angular units and of its controls. -/
theorem build_eq_ok :
    build n layout given = .ok c ↔ n ≠ 0 ∧ n ≤ mostQubits ∧ ∃ strengths controls,
      given.normalize n (layout.couplings n).length = .ok strengths ∧
      buildControls n (layout.couplings n) = .ok controls ∧
      c = ⟨layout, given, controls,
        decomposerOf n controls.length (layout.couplings n) strengths⟩ := by
  have hsize : (decide (n = 0) || decide (mostQubits < n)) = true ↔ ¬(n ≠ 0 ∧ n ≤ mostQubits) := by
    rw [Bool.or_eq_true, decide_eq_true_iff, decide_eq_true_iff]
    omega
  unfold build
  rw [← and_assoc]
  by_cases h : n ≠ 0 ∧ n ≤ mostQubits
  · rw [if_neg (mt hsize.mp (not_not.mpr h))]
    constructor
    · intro hbuild
      obtain ⟨strengths, hstrengths, hbuild⟩ := Result.bind_eq_ok.mp hbuild
      obtain ⟨controls, hcontrols, hbuild⟩ := Result.bind_eq_ok.mp hbuild
      exact ⟨h, strengths, controls, hstrengths, hcontrols, (Except.ok.inj hbuild).symm⟩
    · rintro ⟨-, strengths, controls, hstrengths, hcontrols, rfl⟩
      exact Result.bind_eq_ok.mpr ⟨strengths, hstrengths, Result.bind_eq_ok.mpr
        ⟨controls, hcontrols, rfl⟩⟩
  · rw [if_pos (hsize.mpr h)]
    exact ⟨fun hbuild => (nomatch hbuild), fun hbuild => absurd hbuild.1 h⟩

/-- The controls of a chain depend on its size and its layout alone. -/
theorem controls_of_build (h : build n layout given = .ok c) :
    buildControls n (layout.couplings n) = .ok c.controls := by
  obtain ⟨-, -, _, _, -, hcontrols, rfl⟩ := build_eq_ok.mp h
  exact hcontrols

theorem numControls_of_build (h : build n layout given = .ok c) :
    c.decomposer.numControls = c.controls.length := by
  obtain ⟨-, -, _, _, -, -, rfl⟩ := build_eq_ok.mp h
  rfl

/-- To give a chain other strengths is to build it with them: the same chain, or the same error. -/
theorem configure_eq_build (h : build n layout given = .ok c) (given' : ChainStrengths α) :
    c.configure given' = build n layout given' := by
  obtain ⟨hpos, hn, strengths, controls, -, hcontrols, rfl⟩ := build_eq_ok.mp h
  have hsize : ¬(decide (n = 0) || decide (mostQubits < n)) = true := by
    simp [hpos, hn]
  unfold build
  rw [if_neg hsize]
  simp only [hcontrols]
  rfl

/-- A chain with other strengths is the chain that they build. -/
theorem build_of_configure (hbuild : build n layout given = .ok c)
    (h : c.configure given' = .ok c') : build n layout given' = .ok c' :=
  configure_eq_build hbuild given' ▸ h

end QubitPulse.SpinChain
