import Mathlib.NumberTheory.Zsqrtd.GaussianInt
import QubitPulse.Proofs.Double.SmallIntegers
import QubitPulse.Proofs.SpinChain.Hermitian

/-!
# Controls in doubles

The entries of controls are small integers, and they are computed from zero and the fourth roots of one by
products and a single sum. All of these are doubles, so controls are stored without rounding; only the
sign of a zero depends on how an entry was computed.
-/
namespace QubitPulse

open Matrix

namespace Amplitude

/-- The parts of the amplitude stand for those of the integer. -/
structure Reads (z : Amplitude Float) (g : GaussianInt) : Prop where
  re : Double.Reads z.re g.re
  im : Double.Reads z.im g.im

/-- Zero and the fourth roots of one. -/
def units : List GaussianInt := [0, 1, -1, ⟨0, 1⟩, ⟨0, -1⟩]

variable {z w : Amplitude Float} {g g' : GaussianInt}

theorem Reads.zero : (zero : Amplitude Float).Reads 0 := ⟨.zero, .zero⟩

theorem Reads.one : (one : Amplitude Float).Reads 1 := ⟨.one, .zero⟩

theorem Reads.i : (i : Amplitude Float).Reads ⟨0, 1⟩ := ⟨.zero, .one⟩

theorem Reads.neg (h : z.Reads g) : (-z).Reads (-g) := ⟨h.re.neg, h.im.neg⟩

theorem Reads.mul (hz : z.Reads g) (hw : w.Reads g') (hg : g ∈ units) (hg' : g' ∈ units) :
    (z * w).Reads (g * g') ∧ g * g' ∈ units := by
  have htable : ∀ g ∈ units, ∀ g' ∈ units, g * g' ∈ units ∧
      (g.re * g'.re).natAbs ≤ 2 ∧ (g.im * g'.im).natAbs ≤ 2 ∧ (g * g').re.natAbs ≤ 2 ∧
      (g.re * g'.im).natAbs ≤ 2 ∧ (g.im * g'.re).natAbs ≤ 2 ∧ (g * g').im.natAbs ≤ 2 := by
    decide
  obtain ⟨hunit, hrr, hii, hre, hri, hir, him⟩ := htable g hg g' hg'
  have hparts : (g * g').re = g.re * g'.re - g.im * g'.im := by
    rw [Zsqrtd.re_mul]
    ring
  rw [hparts] at hre
  rw [Zsqrtd.im_mul] at him
  refine ⟨⟨?_, ?_⟩, hunit⟩
  · rw [hparts]
    exact (hz.re.mul hw.re hrr).sub (hz.im.mul hw.im hii) hre
  · rw [Zsqrtd.im_mul]
    exact (hz.re.mul hw.im hri).add (hz.im.mul hw.re hir) him

theorem Reads.add (hz : z.Reads g) (hw : w.Reads g') (hg : g ∈ units) (hg' : g' ∈ units) :
    (z + w).Reads (g + g') := by
  have htable : ∀ g ∈ units, ∀ g' ∈ units,
      (g.re + g'.re).natAbs ≤ 2 ∧ (g.im + g'.im).natAbs ≤ 2 := by
    decide
  obtain ⟨hre, him⟩ := htable g hg g' hg'
  exact ⟨hz.re.add hw.re hre, hz.im.add hw.im him⟩

end Amplitude

namespace Operator

/-- The operator stores this matrix of one qubit, of units alone. -/
structure StoresUnits (op : Operator Float) (A : LocalMatrix) : Prop where
  rows : op.rows = 2
  cols : op.cols = 2
  entry : ∀ i j : Fin 2, ∃ g ∈ Amplitude.units, (op.entry i j).Reads g ∧ (g : ℂ) = A i j

variable {n : ℕ}

/-- The operator stores this matrix of a register. -/
structure Stores (a : Operator Float) (M : Matrix (Basis n) (Basis n) ℂ) : Prop where
  rows : a.rows = registerDim n
  cols : a.cols = registerDim n
  entry : ∀ b c, ∃ g : GaussianInt, (a.entry (Basis.number n b) (Basis.number n c)).Reads g ∧
    (g : ℂ) = M b c

theorem storesUnits_two {a b c d : Amplitude Float} {g₁ g₂ g₃ g₄ : GaussianInt} (ha : a.Reads g₁)
    (hb : b.Reads g₂) (hc : c.Reads g₃) (hd : d.Reads g₄)
    (h : g₁ ∈ Amplitude.units ∧ g₂ ∈ Amplitude.units ∧ g₃ ∈ Amplitude.units ∧ g₄ ∈ Amplitude.units) :
    (two a b c d).StoresUnits !![(g₁ : ℂ), g₂; g₃, g₄] := by
  obtain ⟨h₁, h₂, h₃, h₄⟩ := h
  refine ⟨rfl, rfl, fun i j => ?_⟩
  fin_cases i <;> fin_cases j
  · exact ⟨g₁, h₁, ha, rfl⟩
  · exact ⟨g₂, h₂, hb, rfl⟩
  · exact ⟨g₃, h₃, hc, rfl⟩
  · exact ⟨g₄, h₄, hd, rfl⟩

theorem storesUnits_identity : (identity 2 : Operator Float).StoresUnits 1 := by
  have hgrid : (identity 2 : Operator Float) = two .one .zero .zero .one := rfl
  have h := storesUnits_two .one .zero .zero .one (by decide)
  rw [hgrid]
  simpa [← Matrix.one_fin_two] using h

theorem storesUnits_sigmaX : (sigmaX : Operator Float).StoresUnits pauliX := by
  have h := storesUnits_two .zero .one .one .zero (by decide)
  simpa [sigmaX, pauliX] using h

theorem storesUnits_sigmaY : (sigmaY : Operator Float).StoresUnits pauliY := by
  have h := storesUnits_two .zero (.neg .i) .i .zero (by decide)
  simpa [sigmaY, pauliY, GaussianInt.toComplex_def] using h

theorem storesUnits_sigmaZ : (sigmaZ : Operator Float).StoresUnits pauliZ := by
  have h := storesUnits_two .one .zero .zero (.neg .one) (by decide)
  simpa [sigmaZ, pauliZ] using h

/-- Tensor products of units are stored as units. -/
theorem reads_tensor {factors : List (ℕ × Operator Float)} {M : Fin n → LocalMatrix}
    (h : ∀ q : Fin n, (factorAt factors q).StoresUnits (M q)) (b c : Basis n) :
    ∃ g ∈ Amplitude.units,
      ((tensor factors n).entry (Basis.number n b) (Basis.number n c)).Reads g ∧
        (g : ℂ) = tensorOf M b c := by
  induction n with
  | zero =>
    refine ⟨1, by decide, ?_, by simp [tensorOf]⟩
    rw [tensor, Basis.number, Basis.number, Operator.identity, entry_ofFn _ Nat.one_pos Nat.one_pos]
    exact .one
  | succ n ih =>
    obtain ⟨g, hg, hreads, hvalue⟩ := ih (fun q => h q.castSucc) (Fin.init b) (Fin.init c)
    obtain ⟨g', hg', hreads', hvalue'⟩ := (h (Fin.last n)).entry (b (Fin.last n)) (c (Fin.last n))
    obtain ⟨hproduct, hunit⟩ := hreads.mul hreads' hg hg'
    refine ⟨g * g', hunit, ?_, ?_⟩
    · rw [entry_tensor_succ fun q => ⟨(h q).rows, (h q).cols⟩]
      exact hproduct
    · rw [map_mul, hvalue, hvalue', tensorOf, tensorOf, Fin.prod_univ_castSucc]
      rfl

theorem stores_tensor {factors : List (ℕ × Operator Float)} {M : Fin n → LocalMatrix}
    (h : ∀ q : Fin n, (factorAt factors q).StoresUnits (M q)) :
    (tensor factors n).Stores (tensorOf M) := by
  obtain ⟨hrows, hcols⟩ := shape_tensor fun q => ⟨(h q).rows, (h q).cols⟩
  refine ⟨hrows, hcols, fun b c => ?_⟩
  obtain ⟨g, -, hreads, hvalue⟩ := reads_tensor h b c
  exact ⟨g, hreads, hvalue⟩

end Operator

namespace SpinChain

open Operator Kronecker

variable {n : ℕ}

theorem exists_storedLocalControl (label : String) {op : Operator Float} {A : LocalMatrix}
    (hop : op.StoresUnits A) {q : ℕ} (hq : q < n) :
    ∃ c, localControl label op n q = .ok c ∧ c.matrix.Stores (atQubit n q A) := by
  have hstores : (tensor [(q, op)] n).Stores (onQubit ⟨q, hq⟩ A) := by
    rw [onQubit_eq_tensorOf]
    exact stores_tensor
      (forall_factorAt (P := StoresUnits) (q := ⟨q, hq⟩) storesUnits_identity hop)
  refine ⟨_, Result.bind_eq_ok.mpr ⟨_, embed_eq_ok hop.rows hop.cols hq,
    control_new_eq_ok _ hstores.rows hstores.cols⟩, ?_⟩
  rw [atQubit, dif_pos hq]
  exact hstores

theorem exists_storedExchangeControl {p : ℕ × ℕ} (hp : p.1 < n ∧ p.2 < n ∧ p.1 ≠ p.2) (k : ℕ) :
    ∃ c, exchangeControl n (p, k) = .ok c ∧ c.matrix.Stores (atPair n p.1 p.2 exchangeMatrix) := by
  obtain ⟨hq, hr, hne⟩ := hp
  have hne' : (⟨p.1, hq⟩ : Fin n) ≠ ⟨p.2, hr⟩ := by simpa using hne
  -- Both products are of units, so that their sum is in range.
  have hpair : ∀ {op : Operator Float} {A : LocalMatrix}, op.StoresUnits A →
      embedFactors [(p.1, op), (p.2, op)] n = .ok (tensor [(p.1, op), (p.2, op)] n) ∧
      ∀ b c, ∃ g ∈ Amplitude.units, ((tensor [(p.1, op), (p.2, op)] n).entry (Basis.number n b)
        (Basis.number n c)).Reads g ∧ (g : ℂ) = onPair ⟨p.1, hq⟩ ⟨p.2, hr⟩ (A ⊗ₖ A) b c := by
    intro op A hop
    refine ⟨embedFactors_eq_ok (by simp [hq, hr, hop.rows, hop.cols]), ?_⟩
    rw [onPair_eq_tensorOf hne']
    exact reads_tensor
      (forall_factorAt_pair (P := StoresUnits) hne' storesUnits_identity hop hop)
  obtain ⟨hxx, hx⟩ := hpair storesUnits_sigmaX
  obtain ⟨hyy, hy⟩ := hpair storesUnits_sigmaY
  obtain ⟨hrows, hcols⟩ := shape_tensor fun s => by
    have h := forall_factorAt_pair (P := StoresUnits) hne' storesUnits_identity storesUnits_sigmaX
      storesUnits_sigmaX s
    exact ⟨h.rows, h.cols⟩
  refine ⟨_, Result.bind_eq_ok.mpr ⟨_, hxx, Result.bind_eq_ok.mpr ⟨_, hyy,
    control_new_eq_ok _ hrows hcols⟩⟩, hrows, hcols, fun b c => ?_⟩
  obtain ⟨g, hg, hreads, hvalue⟩ := hx b c
  obtain ⟨g', hg', hreads', hvalue'⟩ := hy b c
  refine ⟨g + g', ?_, ?_⟩
  · rw [Operator.add, entry_ofFn _ (hrows ▸ Basis.number_lt b) (hcols ▸ Basis.number_lt c)]
    exact hreads.add hreads' hg hg'
  · rw [map_add, hvalue, hvalue', atPair, dif_pos ⟨hq, hr⟩, exchangeMatrix, onPair_add]
    rfl

/-- The controls of a chain are stored without rounding. -/
theorem stores_of_build {layout : ChainLayout} {given : ChainStrengths Float} {c : SpinChain Float}
    (h : build n layout given = .ok c) : List.Forall₂ (fun control H => control.matrix.Stores H)
      c.controls (controlMatrices n (layout.couplings n)) := by
  obtain ⟨controls, hcontrols, hstores⟩ := exists_buildControls_of
    (R := fun (control : ControlOperator Float) H => control.matrix.Stores H)
    (fun _ => exists_storedLocalControl "sx" storesUnits_sigmaX)
    (fun _ => exists_storedLocalControl "sz" storesUnits_sigmaZ)
    fun p (hp : p ∈ layout.couplings n) k => exists_storedExchangeControl (lt_of_mem_couplings hp) k
  obtain rfl := Except.ok.inj (hcontrols.symm.trans (controls_of_build h))
  exact hstores

end SpinChain
end QubitPulse
