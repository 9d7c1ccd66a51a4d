import QubitPulse.Proofs.Gate.Unitary
import QubitPulse.SpinChain.Native

/-!
# Native gates perform the gate they replace

The product of the native gates of a gate is its textbook matrix, the global phase included.
-/
namespace QubitPulse

open Matrix NormedSpace

section Rotations

theorem pauliX_mul_self : pauliX * pauliX = 1 := by
  ext i j
  fin_cases i <;> fin_cases j <;> simp [pauliX]

theorem pauliY_mul_self : pauliY * pauliY = 1 := by
  ext i j
  fin_cases i <;> fin_cases j <;> simp [pauliY]

theorem pauliZ_mul_self : pauliZ * pauliZ = 1 := by
  ext i j
  fin_cases i <;> fin_cases j <;> simp [pauliZ]

theorem rotationAbout_eq {P : LocalMatrix} (h : P * P = 1) (θ : ℝ) :
    rotationAbout P θ =
      (Real.cos (θ / 2) : ℂ) • 1 - (Complex.I * Real.sin (θ / 2)) • P := by
  have hcube : P * P * P = P := by rw [h, one_mul]
  rw [rotationAbout, exp_smul_matrix hcube, h, Complex.ofReal_cos, Complex.ofReal_sin]
  module

theorem rotationAbout_pauliX (θ : ℝ) :
    rotationAbout pauliX θ =
      !![(Real.cos (θ / 2) : ℂ), -(Complex.I * Real.sin (θ / 2));
        -(Complex.I * Real.sin (θ / 2)), Real.cos (θ / 2)] := by
  rw [rotationAbout_eq pauliX_mul_self]
  ext i j
  fin_cases i <;> fin_cases j <;> simp [pauliX]

theorem rotationAbout_pauliY (θ : ℝ) :
    rotationAbout pauliY θ =
      !![(Real.cos (θ / 2) : ℂ), -Real.sin (θ / 2); (Real.sin (θ / 2) : ℂ), Real.cos (θ / 2)] := by
  rw [rotationAbout_eq pauliY_mul_self]
  ext i j
  fin_cases i <;> fin_cases j <;> simp [pauliY, mul_right_comm Complex.I _ Complex.I]

theorem rotationAbout_pauliZ (θ : ℝ) :
    rotationAbout pauliZ θ =
      !![Real.cos (θ / 2) - Complex.I * Real.sin (θ / 2), 0;
        0, Real.cos (θ / 2) + Complex.I * Real.sin (θ / 2)] := by
  rw [rotationAbout_eq pauliZ_mul_self]
  ext i j
  fin_cases i <;> fin_cases j <;> simp [pauliZ]

theorem sqrt_two_sq : ((√2 : ℝ) : ℂ) ^ 2 = 2 := by
  rw [← Complex.ofReal_pow, Real.sq_sqrt two_pos.le, Complex.ofReal_ofNat]

theorem inv_sqrt_two : ((√2 : ℝ) : ℂ)⁻¹ = (√2 : ℝ) / 2 := by
  have hne : ((√2 : ℝ) : ℂ) ≠ 0 := by simp
  field_simp
  exact sqrt_two_sq.symm

/-- A rotation about x between turns about z by a right angle back and forth is one about y. -/
theorem rotationAbout_pauliY_eq (θ : ℝ) :
    rotationAbout pauliZ (Real.pi / 2) * rotationAbout pauliX θ *
      rotationAbout pauliZ (-(Real.pi / 2)) = rotationAbout pauliY θ := by
  have hhalf : Real.pi / 2 / 2 = Real.pi / 4 := by ring
  have hsquare := sqrt_two_sq
  rw [rotationAbout_pauliX, rotationAbout_pauliY, rotationAbout_pauliZ, rotationAbout_pauliZ,
    neg_div, hhalf, Real.cos_neg, Real.sin_neg, Real.cos_pi_div_four, Real.sin_pi_div_four]
  simp only [Complex.ofReal_div, Complex.ofReal_neg, Complex.ofReal_ofNat]
  generalize ((√2 : ℝ) : ℂ) = r at hsquare
  have hunit := Complex.I_sq
  ext i j
  fin_cases i <;> fin_cases j <;> simp
  · linear_combination Complex.cos (θ / 2) * (hsquare / 2 - r ^ 2 / 4 * hunit)
  · linear_combination
      Complex.sin (θ / 2) * (hsquare / 2 + r ^ 2 / 4 * (Complex.I - 2) * hunit)
  · linear_combination
      Complex.sin (θ / 2) * (hsquare / 2 - r ^ 2 / 4 * (Complex.I + 2) * hunit)
  · linear_combination Complex.cos (θ / 2) * (hsquare / 2 - r ^ 2 / 4 * hunit)

/-- A rotation by a half turn differs from the matrix of its axis by a phase. -/
theorem I_smul_rotationAbout_pi {P : LocalMatrix} (h : P * P = 1) :
    Complex.I • rotationAbout P Real.pi = P := by
  rw [rotationAbout_eq h, Real.cos_pi_div_two, Real.sin_pi_div_two, smul_sub, smul_smul, smul_smul]
  simp

theorem pauliX_mul_rotationAbout :
    pauliX * rotationAbout pauliY (Real.pi / 2) = hadamard := by
  have hhalf : Real.pi / 2 / 2 = Real.pi / 4 := by ring
  rw [rotationAbout_pauliY, hhalf, Real.cos_pi_div_four, Real.sin_pi_div_four, hadamard,
    inv_sqrt_two]
  ext i j
  fin_cases i <;> fin_cases j <;> simp [pauliX]

end Rotations

namespace Gate

variable {n : ℕ}

theorem halfPi_real : (halfPi : ℝ) = Real.pi / 2 := by
  simp [halfPi]

theorem exp_halfPi : Complex.exp ((halfPi : ℝ) * Complex.I) = Complex.I := by
  rw [halfPi_real, Complex.exp_mul_I, ← Complex.ofReal_cos, ← Complex.ofReal_sin,
    Real.cos_pi_div_two, Real.sin_pi_div_two]
  simp

theorem unitaryOf_ryAsRx (q : Fin n) (θ : ℝ) :
    unitaryOf n (ryAsRx (q : ℕ) θ) = onQubit q (rotationAbout pauliY θ) := by
  rw [← rotationAbout_pauliY_eq, ← onQubit_mul, ← onQubit_mul, ← halfPi_real]
  simp [ryAsRx]

/-- A half turn and a phase perform the matrix of the axis. -/
theorem unitaryOf_halfTurn {gates : List (Gate ℝ)} {q : Fin n} {P : LocalMatrix} (hP : P * P = 1)
    (h : unitaryOf n gates = onQubit q (rotationAbout P Real.pi)) :
    unitaryOf n (gates ++ [.globalPhase halfPi]) = onQubit q P := by
  rw [unitaryOf_append, h, unitaryOf_cons, unitaryOf_nil, unitary_globalPhase, exp_halfPi, one_mul,
    smul_mul_assoc, one_mul, ← onQubit_smul, I_smul_rotationAbout_pi hP]

/-- The native gates of a gate perform it. -/
theorem unitaryOf_expand {g : Gate ℝ} (h : OnRegister n g) {native : List (Gate ℝ)}
    (hnative : g.expand = .ok native) : unitaryOf n native = g.unitary n := by
  cases h with
  | x q =>
    obtain rfl := Except.ok.inj hnative
    calc unitaryOf n ([.rx q Real.pi] ++ [.globalPhase halfPi])
        = onQubit q pauliX := unitaryOf_halfTurn pauliX_mul_self (by simp)
      _ = (x q).unitary n := (atQubit_val q _).symm
  | y q =>
    obtain rfl := Except.ok.inj hnative
    calc unitaryOf n (ryAsRx q Real.pi ++ [.globalPhase halfPi])
        = onQubit q pauliY := unitaryOf_halfTurn pauliY_mul_self (unitaryOf_ryAsRx q Real.pi)
      _ = (y q).unitary n := (atQubit_val q _).symm
  | z q =>
    obtain rfl := Except.ok.inj hnative
    calc unitaryOf n ([.rz q Real.pi] ++ [.globalPhase halfPi])
        = onQubit q pauliZ := unitaryOf_halfTurn pauliZ_mul_self (by simp)
      _ = (z q).unitary n := (atQubit_val q _).symm
  | h q =>
    obtain rfl := Except.ok.inj hnative
    have hturn : unitaryOf n ([.rx q Real.pi] ++ [.globalPhase halfPi]) = onQubit q pauliX :=
      unitaryOf_halfTurn pauliX_mul_self (by simp)
    calc unitaryOf n (ryAsRx q halfPi ++ ([.rx q Real.pi] ++ [.globalPhase halfPi]))
        = onQubit q pauliX * onQubit q (rotationAbout pauliY (Real.pi / 2)) := by
          rw [unitaryOf_append, hturn, unitaryOf_ryAsRx, halfPi_real]
      _ = onQubit q hadamard := by rw [onQubit_mul, pauliX_mul_rotationAbout]
      _ = (Gate.h q).unitary n := (atQubit_val q _).symm
  | ry q θ =>
    obtain rfl := Except.ok.inj hnative
    exact (unitaryOf_ryAsRx q θ).trans (atQubit_val q _).symm
  | _ =>
    obtain rfl := Except.ok.inj hnative
    simp

theorem onRegister_of_mem_expand {α : Type} [Scalar α] {g : Gate α} (h : OnRegister n g)
    {native : List (Gate α)} (hnative : g.expand = .ok native) : ∀ g' ∈ native, OnRegister n g' := by
  cases h <;> obtain rfl := Except.ok.inj hnative <;> intro g' hg' <;>
    simp only [ryAsRx, List.cons_append, List.nil_append, List.mem_cons, List.not_mem_nil,
      or_false] at hg'
  case x | z => rcases hg' with rfl | rfl <;> constructor
  case y => rcases hg' with rfl | rfl | rfl | rfl <;> constructor
  case h => rcases hg' with rfl | rfl | rfl | rfl | rfl <;> constructor
  case ry => rcases hg' with rfl | rfl | rfl <;> constructor
  all_goals
    subst hg'
    constructor <;> assumption

/-- The native gates of a gate act on its qubits. -/
theorem qubits_subset_of_mem_expand {α : Type} [Scalar α] {g : Gate α} (h : OnRegister n g)
    {native : List (Gate α)} (hnative : g.expand = .ok native) :
    ∀ g' ∈ native, g'.qubits ⊆ g.qubits := by
  cases h <;> obtain rfl := Except.ok.inj hnative
  case x | y | z | h | ry => simp [ryAsRx, qubits, x, y, z, Gate.h, ry, rx, rz, globalPhase]
  all_goals simp

theorem exists_of_mem_resolveAll {α : Type} [Scalar α] {gates native : List (Gate α)}
    (h : resolveAll gates = .ok native) {g' : Gate α} (hg' : g' ∈ native) :
    ∃ g ∈ gates, ∃ part, g.expand = .ok part ∧ g' ∈ part := by
  obtain ⟨parts, hparts, rfl⟩ := Result.map_eq_ok.mp h
  obtain ⟨part, hpart, hmem⟩ := List.mem_flatten.mp hg'
  obtain ⟨i, hi, rfl⟩ := List.mem_iff_getElem.mp hpart
  have hresolved := Result.mapM_eq_ok.mp hparts
  have hi' : i < gates.length := hresolved.length_eq ▸ hi
  obtain ⟨_, _, hexpand⟩ := Result.bind_eq_ok.mp (hresolved.get hi' hi)
  exact ⟨gates[i], List.getElem_mem hi', _, hexpand, hmem⟩

/-- The native gates of a gate list perform it, and they act on its register. -/
theorem unitaryOf_resolveAll {gates native : List (Gate ℝ)} (h : ∀ g ∈ gates, OnRegister n g)
    (hnative : resolveAll gates = .ok native) :
    unitaryOf n native = unitaryOf n gates ∧ ∀ g ∈ native, OnRegister n g := by
  obtain ⟨parts, hparts, rfl⟩ := Result.map_eq_ok.mp hnative
  have hpieces := Result.mapM_eq_ok.mp hparts
  clear hnative hparts
  induction hpieces with
  | nil => simp
  | @cons g part gates parts hpart _ ih =>
    obtain ⟨_, _, hexpand⟩ := Result.bind_eq_ok.mp hpart
    have hg : OnRegister n g := h g (by simp)
    obtain ⟨hproduct, hforms⟩ := ih fun g hg => h g (by simp [hg])
    refine ⟨?_, fun g' hg' => ?_⟩
    · rw [List.flatten_cons, unitaryOf_append, unitaryOf_cons, hproduct, unitaryOf_expand hg hexpand]
    · rw [List.flatten_cons, List.mem_append] at hg'
      exact hg'.elim (onRegister_of_mem_expand hg hexpand g') (hforms g')

end Gate
end QubitPulse
