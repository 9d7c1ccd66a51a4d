import QubitPulse.Proofs.Exact.Exponential
import QubitPulse.Proofs.Gate.Forms

/-!
# Textbook gates

The matrix of every kind of gate, embedded on the qubits of the gate, and the product of the matrices of
a gate list. Rotations are exponentials of Pauli matrices, with half the angle.
-/
namespace QubitPulse

open Matrix NormedSpace Kronecker

section Matrices

def pauliX : LocalMatrix := !![0, 1; 1, 0]

def pauliY : LocalMatrix := !![0, -Complex.I; Complex.I, 0]

def pauliZ : LocalMatrix := !![1, 0; 0, -1]

noncomputable def hadamard : LocalMatrix := ((√2 : ℝ) : ℂ)⁻¹ • !![1, 1; 1, -1]

/-- Rotation by an angle about the axis of a Pauli matrix. -/
noncomputable def rotationAbout (P : LocalMatrix) (θ : ℝ) : LocalMatrix :=
  exp ((-(Complex.I * (θ / 2 : ℝ))) • P)

/-- A matrix of a pair by its rows, in the order of the values 00, 01, 10, 11. -/
def pairMatrix (M : Matrix (Fin 4) (Fin 4) ℂ) : PairMatrix :=
  M.submatrix (finProdFinEquiv : Fin 2 × Fin 2 ≃ Fin 4) (finProdFinEquiv : Fin 2 × Fin 2 ≃ Fin 4)

def cnotMatrix : PairMatrix :=
  pairMatrix !![1, 0, 0, 0; 0, 1, 0, 0; 0, 0, 0, 1; 0, 0, 1, 0]

def czMatrix : PairMatrix :=
  pairMatrix !![1, 0, 0, 0; 0, 1, 0, 0; 0, 0, 1, 0; 0, 0, 0, -1]

def swapMatrix : PairMatrix :=
  pairMatrix !![1, 0, 0, 0; 0, 0, 1, 0; 0, 1, 0, 0; 0, 0, 0, 1]

def iSwapMatrix : PairMatrix :=
  pairMatrix !![1, 0, 0, 0; 0, 0, Complex.I, 0; 0, Complex.I, 0, 0; 0, 0, 0, 1]

noncomputable def sqrtISwapMatrix : PairMatrix :=
  let r : ℂ := ((√2 : ℝ) : ℂ)⁻¹
  pairMatrix !![1, 0, 0, 0; 0, r, Complex.I * r, 0; 0, Complex.I * r, r, 0; 0, 0, 0, 1]

end Matrices

/-- Acts on the qubit of this number, if the register has it. -/
noncomputable def atQubit (n q : ℕ) (A : LocalMatrix) : Matrix (Basis n) (Basis n) ℂ :=
  if h : q < n then onQubit ⟨q, h⟩ A else 1

/-- Acts on the qubits of these numbers, if the register has them. -/
noncomputable def atPair (n q r : ℕ) (A : PairMatrix) : Matrix (Basis n) (Basis n) ℂ :=
  if h : q < n ∧ r < n then onPair ⟨q, h.1⟩ ⟨r, h.2⟩ A else 1

@[simp] theorem atQubit_val {n : ℕ} (q : Fin n) (A : LocalMatrix) : atQubit n q A = onQubit q A :=
  dif_pos q.isLt

@[simp] theorem atPair_val {n : ℕ} (q r : Fin n) (A : PairMatrix) :
    atPair n q r A = onPair q r A :=
  dif_pos ⟨q.isLt, r.isLt⟩

namespace Gate

/-- The matrix of a gate on a register. A gate that is not well-formed has none; the identity stands in
for it. -/
noncomputable def unitary (n : ℕ) (g : Gate ℝ) : Matrix (Basis n) (Basis n) ℂ :=
  match g.kind, g.qubits, g.angle with
  | .rx, [q], some θ => atQubit n q (rotationAbout pauliX θ)
  | .ry, [q], some θ => atQubit n q (rotationAbout pauliY θ)
  | .rz, [q], some θ => atQubit n q (rotationAbout pauliZ θ)
  | .x, [q], none => atQubit n q pauliX
  | .y, [q], none => atQubit n q pauliY
  | .z, [q], none => atQubit n q pauliZ
  | .h, [q], none => atQubit n q hadamard
  | .cnot, [c, t], none => atPair n c t cnotMatrix
  | .cz, [c, t], none => atPair n c t czMatrix
  | .swap, [q, r], none => atPair n q r swapMatrix
  | .iSwap, [q, r], none => atPair n q r iSwapMatrix
  | .sqrtISwap, [q, r], none => atPair n q r sqrtISwapMatrix
  | .globalPhase, [], some φ => Complex.exp (φ * Complex.I) • 1
  | _, _, _ => 1

/-- The product of the matrices of a gate list, the first gate rightmost. -/
noncomputable def unitaryOf (n : ℕ) (gates : List (Gate ℝ)) : Matrix (Basis n) (Basis n) ℂ :=
  (gates.map (unitary n)).reverse.prod

@[simp] theorem unitaryOf_nil (n : ℕ) : unitaryOf n [] = 1 := rfl

@[simp] theorem unitaryOf_cons (n : ℕ) (g : Gate ℝ) (gates : List (Gate ℝ)) :
    unitaryOf n (g :: gates) = unitaryOf n gates * g.unitary n := by
  simp [unitaryOf]

theorem unitaryOf_append (n : ℕ) (gates gates' : List (Gate ℝ)) :
    unitaryOf n (gates ++ gates') = unitaryOf n gates' * unitaryOf n gates := by
  simp [unitaryOf]

section Forms

variable {n : ℕ}

@[simp] theorem unitary_rx (q : Fin n) (θ : ℝ) :
    (rx q θ).unitary n = onQubit q (rotationAbout pauliX θ) :=
  atQubit_val q _

@[simp] theorem unitary_rz (q : Fin n) (θ : ℝ) :
    (rz q θ).unitary n = onQubit q (rotationAbout pauliZ θ) :=
  atQubit_val q _

@[simp] theorem unitary_globalPhase (φ : ℝ) :
    (globalPhase φ).unitary n = Complex.exp (φ * Complex.I) • 1 := rfl

end Forms

end Gate
end QubitPulse
