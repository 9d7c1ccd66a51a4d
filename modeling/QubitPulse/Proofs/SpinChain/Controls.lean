import QubitPulse.Proofs.Exact.Evolution
import QubitPulse.Proofs.Gate.Unitary
import QubitPulse.Proofs.SpinChain.Build
import QubitPulse.Proofs.SpinChain.Strengths
import QubitPulse.Proofs.Storage

/-!
# What the controls of a chain do

The controls of a chain are Pauli matrices on its qubits and exchanges of its coupled pairs, in the order
in which pulses number them.
-/
namespace QubitPulse

open Matrix Kronecker Operator

/-- The sum of the products of both x and both y components of a pair. -/
def exchangeMatrix : PairMatrix := pauliX ⊗ₖ pauliX + pauliY ⊗ₖ pauliY

/-- The exchange does not depend on the order of its pair. -/
theorem onPair_exchangeMatrix {n : ℕ} (q r : Fin n) :
    onPair r q exchangeMatrix = onPair q r exchangeMatrix := by
  have hswap : ∀ i j k l : Fin 2, exchangeMatrix (i, j) (k, l) = exchangeMatrix (j, i) (l, k) := by
    intro i j k l
    simp only [exchangeMatrix, Matrix.add_apply, Matrix.kronecker_apply]
    ring
  ext b c
  simp only [onPair, hswap (b r), imp.swap (a := _ ≠ r)]

namespace SpinChain

noncomputable def controlMatrices (n : ℕ) (couplings : List (ℕ × ℕ)) :
    List (Matrix (Basis n) (Basis n) ℂ) :=
  (List.range n).map (fun q => atQubit n q pauliX) ++
    (List.range n).map (fun q => atQubit n q pauliZ) ++
      couplings.map fun p => atPair n p.1 p.2 exchangeMatrix

theorem forall_mem_controlMatrices {n : ℕ} {couplings : List (ℕ × ℕ)}
    {P : Matrix (Basis n) (Basis n) ℂ → Prop} : (∀ H ∈ controlMatrices n couplings, P H) ↔
      (∀ q < n, P (atQubit n q pauliX)) ∧ (∀ q < n, P (atQubit n q pauliZ)) ∧
        ∀ p ∈ couplings, P (atPair n p.1 p.2 exchangeMatrix) := by
  unfold controlMatrices
  simp only [List.forall_mem_append, List.forall_mem_map, List.mem_range, and_assoc]

theorem represents_sigmaX : sigmaX.Represents pauliX := by
  have h := represents_two .zero .one .one .zero
  simpa [sigmaX, pauliX] using h

theorem represents_sigmaY : sigmaY.Represents pauliY := by
  have h := represents_two .zero (-.i) .i .zero
  simpa [sigmaY, pauliY] using h

theorem represents_sigmaZ : sigmaZ.Represents pauliZ := by
  have h := represents_two .one .zero .zero (-.one)
  simpa [sigmaZ, pauliZ] using h

theorem control_new_eq_ok {α : Type} (label : String) {op : Operator α} {n : ℕ}
    (hrows : op.rows = registerDim n) (hcols : op.cols = registerDim n) :
    ControlOperator.new label op n = .ok ⟨label, op⟩ := by
  simp [ControlOperator.new, Operator.isSquare, hrows, hcols]

theorem exists_control (label : String) {op : Operator ℝ} {n : ℕ}
    {M : Matrix (Basis n) (Basis n) ℂ} (h : op.ActsAs M) :
    ∃ c, ControlOperator.new label op n = .ok c ∧ c.matrix.ActsAs M :=
  ⟨⟨label, op⟩, control_new_eq_ok label h.rows h.cols, h⟩

theorem exists_localControl (label : String) {op : Operator ℝ} {A : LocalMatrix}
    (hop : op.Represents A) {n q : ℕ} (hq : q < n) :
    ∃ c, localControl label op n q = .ok c ∧ c.matrix.ActsAs (atQubit n q A) := by
  obtain ⟨e, he, hacts⟩ := actsAs_embed ⟨q, hq⟩ hop
  obtain ⟨c, hc, hcontrol⟩ := exists_control (label ++ toString q) hacts
  refine ⟨c, Result.bind_eq_ok.mpr ⟨e, he, hc⟩, ?_⟩
  rw [atQubit, dif_pos hq]
  exact hcontrol

theorem exists_exchangeControl {n : ℕ} {p : ℕ × ℕ} (hp : p.1 < n ∧ p.2 < n ∧ p.1 ≠ p.2) (k : ℕ) :
    ∃ c, exchangeControl n (p, k) = .ok c ∧
      c.matrix.ActsAs (atPair n p.1 p.2 exchangeMatrix) := by
  obtain ⟨hq, hr, hne⟩ := hp
  have hne' : (⟨p.1, hq⟩ : Fin n) ≠ ⟨p.2, hr⟩ := by simpa using hne
  obtain ⟨xx, hxx, hx⟩ := actsAs_embedFactors hne' represents_sigmaX represents_sigmaX
  obtain ⟨yy, hyy, hy⟩ := actsAs_embedFactors hne' represents_sigmaY represents_sigmaY
  obtain ⟨c, hc, hcontrol⟩ := exists_control s!"sxsy{k}" (hx.add hy)
  refine ⟨c, Result.bind_eq_ok.mpr ⟨xx, hxx, Result.bind_eq_ok.mpr ⟨yy, hyy, hc⟩⟩, ?_⟩
  rw [atPair, dif_pos ⟨hq, hr⟩, exchangeMatrix, onPair_add]
  exact hcontrol

/-- Coupled qubits are different qubits of the register. -/
theorem lt_of_mem_couplings {layout : ChainLayout} {n : ℕ} {p : ℕ × ℕ}
    (h : p ∈ layout.couplings n) : p.1 < n ∧ p.2 < n ∧ p.1 ≠ p.2 := by
  rcases List.mem_append.mp h with h | h
  · obtain ⟨i, hi, rfl⟩ := List.mem_map.mp h
    have := List.mem_range.mp hi
    exact ⟨by omega, by omega, by simp⟩
  · cases layout with
    | linear => cases h
    | circular =>
      unfold ChainLayout.closingPair at h
      split_ifs at h with hn
      · obtain rfl := List.mem_singleton.mp h
        exact ⟨by simp; omega, by simp; omega, by simp; omega⟩
      · cases h

/-- If every control can be built and is what its number says, so is the list of all. -/
theorem exists_buildControls_of {α : Type} [Scalar α] {n : ℕ} {couplings : List (ℕ × ℕ)}
    {R : ControlOperator α → Matrix (Basis n) (Basis n) ℂ → Prop}
    (hx : ∀ q < n, ∃ c, localControl "sx" sigmaX n q = .ok c ∧ R c (atQubit n q pauliX))
    (hz : ∀ q < n, ∃ c, localControl "sz" sigmaZ n q = .ok c ∧ R c (atQubit n q pauliZ))
    (he : ∀ p ∈ couplings, ∀ k, ∃ c, exchangeControl n (p, k) = .ok c ∧
      R c (atPair n p.1 p.2 exchangeMatrix)) :
    ∃ controls, buildControls n couplings = .ok controls ∧
      List.Forall₂ R controls (controlMatrices n couplings) := by
  obtain ⟨xs, hxs, hx⟩ := Result.exists_mapM fun q hq => hx q (List.mem_range.mp hq)
  obtain ⟨zs, hzs, hz⟩ := Result.exists_mapM fun q hq => hz q (List.mem_range.mp hq)
  obtain ⟨es, hes, he⟩ := Result.exists_mapM fun (p : (ℕ × ℕ) × ℕ) (hp : p ∈ couplings.zipIdx) =>
    he p.1 (List.fst_mem_of_mem_zipIdx hp) p.2
  refine ⟨xs ++ zs ++ es, Result.bind_eq_ok.mpr ⟨xs, hxs, Result.bind_eq_ok.mpr ⟨zs, hzs,
    Result.bind_eq_ok.mpr ⟨es, hes, rfl⟩⟩⟩, List.rel_append (List.rel_append hx hz) ?_⟩
  have hpairs : couplings.map (fun p => atPair n p.1 p.2 exchangeMatrix) =
      couplings.zipIdx.map fun p => atPair n p.1.1 p.1.2 exchangeMatrix := by
    conv_lhs => rw [← List.zipIdx_map_fst 0 couplings, List.map_map]
    rfl
  rw [hpairs]
  exact he

/-- The controls of a chain can be built, and they do what their numbers say. -/
theorem exists_buildControls {n : ℕ} {couplings : List (ℕ × ℕ)}
    (h : ∀ p ∈ couplings, p.1 < n ∧ p.2 < n ∧ p.1 ≠ p.2) :
    ∃ controls, buildControls n couplings = .ok controls ∧
      ControlsAct controls (controlMatrices n couplings) :=
  exists_buildControls_of (fun _ => exists_localControl "sx" represents_sigmaX)
    (fun _ => exists_localControl "sz" represents_sigmaZ) fun p hp =>
      exists_exchangeControl (h p hp)

theorem length_controlMatrices (n : ℕ) (couplings : List (ℕ × ℕ)) :
    (controlMatrices n couplings).length = 2 * n + couplings.length := by
  simp [controlMatrices, two_mul, add_assoc]

theorem length_couplings_le (layout : ChainLayout) (n : ℕ) : (layout.couplings n).length ≤ n := by
  have hclosing : (layout.closingPair n).length ≤ n - (n - 1) := by
    cases layout with
    | linear => exact Nat.zero_le _
    | circular =>
      unfold ChainLayout.closingPair
      split_ifs with hn
      · simp
        omega
      · exact Nat.zero_le _
  simp only [ChainLayout.couplings, List.length_append, List.length_map, List.length_range]
  omega

theorem length_buildControls {α : Type} [Scalar α] {n : ℕ} {couplings : List (ℕ × ℕ)}
    {controls : List (ControlOperator α)} (h : buildControls n couplings = .ok controls) :
    controls.length = 2 * n + couplings.length := by
  obtain ⟨xs, hxs, h⟩ := Result.bind_eq_ok.mp h
  obtain ⟨zs, hzs, h⟩ := Result.bind_eq_ok.mp h
  obtain ⟨exchanges, hexchanges, h⟩ := Result.bind_eq_ok.mp h
  obtain rfl := (Except.ok.inj h).symm
  have hxs := (Result.mapM_eq_ok.mp hxs).length_eq
  have hzs := (Result.mapM_eq_ok.mp hzs).length_eq
  have hexchanges := (Result.mapM_eq_ok.mp hexchanges).length_eq
  simp only [List.length_range, List.length_zipIdx] at hxs hzs hexchanges
  simp only [List.length_append]
  omega

/-- A chain has two controls a qubit and one a coupling, so at most three a qubit. -/
theorem length_controls_of_build {α : Type} [Scalar α] {n : ℕ} {layout : ChainLayout}
    {given : ChainStrengths α} {c : SpinChain α} (h : build n layout given = .ok c) :
    c.controls.length = 2 * n + (layout.couplings n).length ∧ c.controls.length ≤ 3 * n := by
  have hlength := length_buildControls (controls_of_build h)
  have := length_couplings_le layout n
  exact ⟨hlength, by omega⟩

/-- A chain of one to eight qubits with usable strengths can be built. -/
theorem exists_build {n : ℕ} {layout : ChainLayout} {given : ChainStrengths ℝ}
    {strengths : ParameterTable ℝ} (hpos : n ≠ 0) (hn : n ≤ mostQubits)
    (h : given.normalize n (layout.couplings n).length = .ok strengths) :
    ∃ controls, build n layout given = .ok ⟨layout, given, controls,
        decomposerOf n controls.length (layout.couplings n) strengths⟩ ∧
      ControlsAct controls (controlMatrices n (layout.couplings n)) := by
  obtain ⟨controls, hcontrols, hacts⟩ :=
    exists_buildControls fun pair hpair => lt_of_mem_couplings hpair
  exact ⟨controls, build_eq_ok.mpr ⟨hpos, hn, strengths, controls, h, hcontrols, rfl⟩, hacts⟩

section Built

variable {n : ℕ} {layout : ChainLayout} {given : ChainStrengths ℝ} {c : SpinChain ℝ}

theorem controlsAct_of_build (h : build n layout given = .ok c) :
    ControlsAct c.controls (controlMatrices n (layout.couplings n)) := by
  obtain ⟨controls, hcontrols, hacts⟩ :=
    exists_buildControls fun pair (hpair : pair ∈ layout.couplings n) => lt_of_mem_couplings hpair
  obtain rfl := Except.ok.inj (hcontrols.symm.trans (controls_of_build h))
  exact hacts

theorem dim_of_build (h : build n layout given = .ok c) :
    ∀ control ∈ c.controls, control.dim = registerDim n :=
  (controlsAct_of_build h).dim

end Built

/-- Every chain of one to eight qubits can be built with one strength above zero of every kind. -/
theorem exists_build_scalar {n : ℕ} (layout : ChainLayout) (hpos : n ≠ 0) (hn : n ≤ mostQubits)
    {x z e : ℝ} (hx : 0 < x) (hz : 0 < z) (he : 0 < e) :
    ∃ c : SpinChain ℝ, build n layout ⟨.scalar x, .scalar z, .scalar e⟩ = .ok c := by
  have hroom : ∀ m ≤ 8, (Storage.reserve 1 [m] : Result ℝ Unit) = .ok () := fun m hm =>
    Storage.reserve_few (hm.trans (by decide))
  have hpositive : ∀ {s : ℝ}, 0 < s → Scalar.isPositive s = true := by simp
  have hcouplings := length_couplings_le layout n
  obtain ⟨strengths, hstrengths⟩ : ∃ strengths : ParameterTable ℝ,
      ChainStrengths.normalize ⟨.scalar x, .scalar z, .scalar e⟩ n (layout.couplings n).length =
        .ok strengths :=
    ⟨_, ChainStrengths.normalize_eq_ok.mpr ⟨_, _, _,
      ChainStrengths.usable_scalar (hpositive hx) (hroom n hn),
      ChainStrengths.usable_scalar (hpositive hz) (hroom n hn),
      ChainStrengths.usable_scalar (hpositive he) (hroom _ (hcouplings.trans hn)), rfl⟩⟩
  obtain ⟨controls, hbuild, -⟩ := exists_build hpos hn hstrengths
  exact ⟨_, hbuild⟩

theorem exists_build_default {n : ℕ} (layout : ChainLayout) (hpos : n ≠ 0) (hn : n ≤ mostQubits) :
    ∃ c : SpinChain ℝ, build n layout .default = .ok c :=
  exists_build_scalar layout hpos hn (by simp [ChainStrengths.defaultSx])
    (by simp [ChainStrengths.defaultSz]) (by simp [ChainStrengths.defaultSxsy])

end SpinChain
end QubitPulse
