import Mathlib.Data.Fin.Basic
import Mathlib.Data.List.Basic
import QubitPulse.Proofs.Gate.Validation

/-!
# Forms of well-formed gates

A gate that passes the check of a register is one of thirteen forms, on qubits that the register has.
-/
namespace QubitPulse.Gate

variable {α : Type}

/-- The forms of well-formed gates on a register. -/
inductive OnRegister (n : ℕ) : Gate α → Prop where
  | rx (q : Fin n) (θ : α) : OnRegister n (.rx q θ)
  | ry (q : Fin n) (θ : α) : OnRegister n (.ry q θ)
  | rz (q : Fin n) (θ : α) : OnRegister n (.rz q θ)
  | x (q : Fin n) : OnRegister n (.x q)
  | y (q : Fin n) : OnRegister n (.y q)
  | z (q : Fin n) : OnRegister n (.z q)
  | h (q : Fin n) : OnRegister n (.h q)
  | cnot (c t : Fin n) (distinct : c ≠ t) : OnRegister n (.cnot c t)
  | cz (c t : Fin n) (distinct : c ≠ t) : OnRegister n (.cz c t)
  | swap (q r : Fin n) (distinct : q ≠ r) : OnRegister n (.swap q r)
  | iSwap (q r : Fin n) (distinct : q ≠ r) : OnRegister n (.iSwap q r)
  | sqrtISwap (q r : Fin n) (distinct : q ≠ r) : OnRegister n (.sqrtISwap q r)
  | globalPhase (φ : α) : OnRegister n (.globalPhase φ)

section Checks

variable [Scalar α]

/-- A gate that passes the check of a register has one of these forms. -/
theorem onRegister_of_checkGate {n : ℕ} {g : Gate α} (h : Circuit.checkGate n g = .ok ()) :
    OnRegister n g := by
  obtain ⟨⟨htargets, hcontrols, hangle, -, hdistinct⟩, hrange⟩ := checkGate_eq_ok_iff_fits.mp h
  obtain ⟨kind, targets, controls, angle⟩ := g
  cases kind <;> simp only [GateKind.numTargets, GateKind.numControls, GateKind.takesAngle,
    List.length_eq_zero_iff, List.length_eq_one_iff, List.length_eq_two, Option.isSome_iff_exists,
    Option.isSome_eq_false_iff, Option.isNone_iff_eq_none] at htargets hcontrols hangle
  case rx | ry | rz =>
    obtain ⟨q, rfl⟩ := htargets
    obtain ⟨θ, rfl⟩ := hangle
    subst hcontrols
    lift q to Fin n using hrange q (by simp [qubits])
    constructor
  case x | y | z | h =>
    obtain ⟨q, rfl⟩ := htargets
    subst hcontrols hangle
    lift q to Fin n using hrange q (by simp [qubits])
    constructor
  case cnot | cz =>
    obtain ⟨t, rfl⟩ := htargets
    obtain ⟨c, rfl⟩ := hcontrols
    subst hangle
    lift t to Fin n using hrange t (by simp [qubits])
    lift c to Fin n using hrange c (by simp [qubits])
    constructor
    simpa [qubits, Fin.val_inj] using hdistinct
  case swap | iSwap | sqrtISwap =>
    obtain ⟨q, r, rfl⟩ := htargets
    subst hcontrols hangle
    lift q to Fin n using hrange q (by simp [qubits])
    lift r to Fin n using hrange r (by simp [qubits])
    constructor
    simpa [qubits, Fin.val_inj] using hdistinct
  case globalPhase =>
    obtain ⟨φ, rfl⟩ := hangle
    subst htargets hcontrols
    constructor

end Checks
end QubitPulse.Gate
