import Mathlib.LinearAlgebra.Matrix.Kronecker
import QubitPulse.Operator.Embedding
import QubitPulse.Proofs.Exact.Operator

/-!
# Matrices of a register

A basis state of a register is a value for every qubit; its number has qubit 0 as most significant bit.
Matrices that act on one qubit or on a pair are sums of tensor products of one factor a qubit, and so
are the operators that are stored for them.
-/
namespace QubitPulse

open Matrix Kronecker

/-- A basis state: the value of every qubit. -/
abbrev Basis (n : ℕ) := Fin n → Fin 2

abbrev LocalMatrix := Matrix (Fin 2) (Fin 2) ℂ

abbrev PairMatrix := Matrix (Fin 2 × Fin 2) (Fin 2 × Fin 2) ℂ

namespace Basis

def number : (n : ℕ) → Basis n → ℕ
  | 0, _ => 0
  | n + 1, b => 2 * number n (Fin.init b) + b (Fin.last n)

theorem number_lt {n : ℕ} (b : Basis n) : number n b < registerDim n := by
  induction n with
  | zero => exact Nat.one_pos
  | succ n ih =>
    have hpow : registerDim (n + 1) = registerDim n * 2 := rfl
    have hinit := ih (Fin.init b)
    rw [number, hpow]
    omega

theorem number_injective (n : ℕ) : Function.Injective (number n) := by
  induction n with
  | zero => exact fun b c _ => Subsingleton.elim b c
  | succ n ih =>
    intro b c h
    simp only [number] at h
    have hinit : Fin.init b = Fin.init c := ih (by omega)
    have hlast : b (Fin.last n) = c (Fin.last n) := by omega
    rw [← Fin.snoc_init_self b, ← Fin.snoc_init_self c, hinit, hlast]

noncomputable def numbering (n : ℕ) : Basis n ≃ Fin (registerDim n) :=
  Equiv.ofBijective (fun b => ⟨number n b, number_lt b⟩) <| by
    have hcard : Fintype.card (Basis n) = registerDim n := by simp [registerDim]
    rw [Fintype.bijective_iff_injective_and_card]
    exact ⟨fun b c h => number_injective n (Fin.mk.inj h), hcard.trans (Fintype.card_fin _).symm⟩

theorem exists_number_eq {n i : ℕ} (hi : i < registerDim n) : ∃ b, number n b = i :=
  ⟨(numbering n).symm ⟨i, hi⟩, congrArg Fin.val ((numbering n).apply_symm_apply ⟨i, hi⟩)⟩

end Basis

/-- The stored operator acts on the basis states of a register as this matrix. -/
def Operator.ActsAs {n : ℕ} (a : Operator ℝ) (M : Matrix (Basis n) (Basis n) ℂ) : Prop :=
  a.Represents (M.submatrix (Basis.numbering n).symm (Basis.numbering n).symm)

variable {n : ℕ}

/-- The tensor product of one factor a qubit. -/
def tensorOf (M : Fin n → LocalMatrix) : Matrix (Basis n) (Basis n) ℂ :=
  fun b c => ∏ q, M q (b q) (c q)

/-- Acts on one qubit and leaves the others alone. -/
def onQubit (q : Fin n) (A : LocalMatrix) : Matrix (Basis n) (Basis n) ℂ :=
  fun b c => if ∀ s, s ≠ q → b s = c s then A (b q) (c q) else 0

/-- Acts on a pair of qubits, the first of them leftmost, and leaves the others alone. -/
def onPair (q r : Fin n) (A : PairMatrix) : Matrix (Basis n) (Basis n) ℂ :=
  fun b c => if ∀ s, s ≠ q → s ≠ r → b s = c s then A (b q, b r) (c q, c r) else 0

section Tensors

theorem prod_one_apply (s : Finset (Fin n)) (M : Fin n → LocalMatrix) (b c : Basis n)
    (h : ∀ q ∈ s, M q = 1) :
    ∏ q ∈ s, M q (b q) (c q) = if ∀ q ∈ s, b q = c q then 1 else 0 := by
  rw [Finset.prod_congr rfl fun q hq => by rw [h q hq, Matrix.one_apply], Finset.prod_boole]
  congr

theorem tensorOf_one : tensorOf (1 : Fin n → LocalMatrix) = 1 := by
  ext b c
  refine (prod_one_apply Finset.univ 1 b c fun _ _ => rfl).trans ?_
  simp [Matrix.one_apply, funext_iff]

theorem tensorOf_mul (M N : Fin n → LocalMatrix) : tensorOf M * tensorOf N = tensorOf (M * N) := by
  ext b c
  simp only [tensorOf, Matrix.mul_apply, Pi.mul_apply, Fintype.prod_sum, Finset.prod_mul_distrib]

theorem onQubit_eq_tensorOf (q : Fin n) (A : LocalMatrix) :
    onQubit q A = tensorOf (Function.update 1 q A) := by
  ext b c
  rw [tensorOf, ← Finset.mul_prod_erase _ _ (Finset.mem_univ q), prod_one_apply, onQubit]
  · simp
  · intro s hs
    exact Function.update_of_ne (Finset.ne_of_mem_erase hs) _ _

theorem onPair_eq_tensorOf {q r : Fin n} (h : q ≠ r) (A B : LocalMatrix) :
    onPair q r (A ⊗ₖ B) =
      tensorOf (Function.update (Function.update 1 q A) r B) := by
  ext b c
  rw [tensorOf, ← Finset.mul_prod_erase _ _ (Finset.mem_univ r),
    ← Finset.mul_prod_erase _ _ (Finset.mem_erase.mpr ⟨h, Finset.mem_univ q⟩), prod_one_apply,
    onPair]
  · simp [h, mul_comm]
  · intro s hs
    rw [Function.update_of_ne (Finset.ne_of_mem_erase (Finset.mem_of_mem_erase hs)),
      Function.update_of_ne (Finset.ne_of_mem_erase hs), Pi.one_apply]

theorem onQubit_smul (q : Fin n) (z : ℂ) (A : LocalMatrix) : onQubit q (z • A) = z • onQubit q A := by
  ext b c
  simp [onQubit]

theorem onQubit_sub (q : Fin n) (A B : LocalMatrix) :
    onQubit q (A - B) = onQubit q A - onQubit q B := by
  ext b c
  simp only [onQubit, Matrix.sub_apply]
  split_ifs <;> simp

theorem onQubit_one (q : Fin n) : onQubit q 1 = 1 := by
  rw [onQubit_eq_tensorOf, ← Pi.one_apply (M := fun _ => LocalMatrix) q, Function.update_eq_self,
    tensorOf_one]

theorem onQubit_mul (q : Fin n) (A B : LocalMatrix) :
    onQubit q A * onQubit q B = onQubit q (A * B) := by
  simp only [onQubit_eq_tensorOf, tensorOf_mul, ← Function.update_mul, mul_one]

section Pairs

variable {q r : Fin n}

theorem onPair_smul (z : ℂ) (A : PairMatrix) : onPair q r (z • A) = z • onPair q r A := by
  ext b c
  simp [onPair]

theorem onPair_add (A B : PairMatrix) : onPair q r (A + B) = onPair q r A + onPair q r B := by
  ext b c
  simp only [onPair, Matrix.add_apply]
  split_ifs <;> simp

theorem onPair_sub (A B : PairMatrix) : onPair q r (A - B) = onPair q r A - onPair q r B := by
  ext b c
  simp only [onPair, Matrix.sub_apply]
  split_ifs <;> simp

theorem onPair_zero : onPair q r 0 = 0 := by
  ext b c
  simp [onPair]

theorem onPair_one (h : q ≠ r) : onPair q r 1 = 1 := by
  have hone : (Function.update (Function.update 1 q 1) r 1 : Fin n → LocalMatrix) = 1 := by
    simp
  rw [← Matrix.one_kronecker_one, onPair_eq_tensorOf h, hone, tensorOf_one]

theorem onPair_kronecker_mul (h : q ≠ r) (A B A' B' : LocalMatrix) :
    onPair q r (A ⊗ₖ B) * onPair q r (A' ⊗ₖ B') = onPair q r ((A * A') ⊗ₖ (B * B')) := by
  simp only [onPair_eq_tensorOf h, tensorOf_mul, ← Function.update_mul, mul_one]

/-- Acting on a pair is multiplicative, since every matrix of a pair is a sum of tensor products. -/
theorem onPair_mul (h : q ≠ r) (A B : PairMatrix) :
    onPair q r A * onPair q r B = onPair q r (A * B) := by
  induction A using Matrix.induction_on' with
  | h_zero => rw [onPair_zero, zero_mul, zero_mul, onPair_zero]
  | h_add A A' hA hA' => rw [onPair_add, add_mul, hA, hA', add_mul, onPair_add]
  | h_std_basis i j x =>
    induction B using Matrix.induction_on' with
    | h_zero => rw [onPair_zero, mul_zero, mul_zero, onPair_zero]
    | h_add B B' hB hB' => rw [onPair_add, mul_add, hB, hB', mul_add, onPair_add]
    | h_std_basis k l y =>
      rw [← mul_one x, ← mul_one y, ← Matrix.single_kronecker_single i.1 j.1 i.2 j.2 x 1,
        ← Matrix.single_kronecker_single k.1 l.1 k.2 l.2 y 1, onPair_kronecker_mul h,
        Matrix.mul_kronecker_mul]

end Pairs

end Tensors

namespace Operator

theorem actsAs_iff {a : Operator ℝ} {M : Matrix (Basis n) (Basis n) ℂ} :
    a.ActsAs M ↔ a.rows = registerDim n ∧ a.cols = registerDim n ∧
      ∀ b c, (a.entry (Basis.number n b) (Basis.number n c)).toComplex = M b c := by
  constructor
  · rintro ⟨hrows, hcols, h⟩
    refine ⟨hrows, hcols, fun b c => ?_⟩
    have hentry := h (Basis.numbering n b) (Basis.numbering n c)
    rwa [Matrix.submatrix_apply, Equiv.symm_apply_apply, Equiv.symm_apply_apply] at hentry
  · rintro ⟨hrows, hcols, h⟩
    refine ⟨hrows, hcols, fun i j => ?_⟩
    rw [Matrix.submatrix_apply, ← h]
    congr
    · exact congrArg Fin.val ((Basis.numbering n).apply_symm_apply i).symm
    · exact congrArg Fin.val ((Basis.numbering n).apply_symm_apply j).symm

namespace ActsAs

variable {a b : Operator ℝ} {M N : Matrix (Basis n) (Basis n) ℂ}

/-- The stored operator determines the matrix. -/
theorem matrix_unique (h : a.ActsAs M) (h' : a.ActsAs N) : M = N := by
  ext b c
  rw [← (actsAs_iff.mp h).2.2 b c, (actsAs_iff.mp h').2.2 b c]

theorem zero : (Operator.zero (registerDim n) (registerDim n)).ActsAs
    (0 : Matrix (Basis n) (Basis n) ℂ) :=
  Represents.zero

theorem add (ha : a.ActsAs M) (hb : b.ActsAs N) : (a.add b).ActsAs (M + N) :=
  Represents.add ha hb

theorem scale (ha : a.ActsAs M) (z : Amplitude ℝ) : (a.scale z).ActsAs (z.toComplex • M) :=
  Represents.scale ha z

theorem mul (ha : a.ActsAs M) (hb : b.ActsAs N) : (a.mul b).ActsAs (M * N) := by
  unfold ActsAs
  rw [← Matrix.submatrix_mul_equiv M N _ (Basis.numbering n).symm _]
  exact Represents.mul ha hb

end ActsAs

section Embedding

section Tensors

variable {α : Type} [Scalar α] {factors : List (ℕ × Operator α)}

theorem shape_tensor (h : ∀ q : Fin n, (factorAt factors q).rows = 2 ∧ (factorAt factors q).cols = 2) :
    (tensor factors n).rows = registerDim n ∧ (tensor factors n).cols = registerDim n := by
  induction n with
  | zero => exact ⟨rfl, rfl⟩
  | succ n ih =>
    obtain ⟨hrows, hcols⟩ := ih fun q => h q.castSucc
    obtain ⟨hrows', hcols'⟩ := h (Fin.last n)
    exact ⟨congrArg₂ (· * ·) hrows hrows', congrArg₂ (· * ·) hcols hcols'⟩

/-- The last qubit is the last factor of every entry. -/
theorem entry_tensor_succ
    (h : ∀ q : Fin (n + 1), (factorAt factors q).rows = 2 ∧ (factorAt factors q).cols = 2)
    (b c : Basis (n + 1)) :
    (tensor factors (n + 1)).entry (Basis.number (n + 1) b) (Basis.number (n + 1) c) =
      (tensor factors n).entry (Basis.number n (Fin.init b)) (Basis.number n (Fin.init c)) *
        (factorAt factors n).entry (b (Fin.last n)) (c (Fin.last n)) := by
  obtain ⟨hrows, hcols⟩ := shape_tensor fun q : Fin n => h q.castSucc
  obtain ⟨hrows', hcols'⟩ : (factorAt factors n).rows = 2 ∧ (factorAt factors n).cols = 2 :=
    h (Fin.last n)
  rw [tensor, kron, entry_ofFn]
  · simp only [kronEntry, hrows', hcols', Basis.number]
    rw [Nat.mul_add_div two_pos, Nat.mul_add_div two_pos, Nat.mul_add_mod, Nat.mul_add_mod,
      Nat.div_eq_of_lt (b (Fin.last n)).isLt, Nat.div_eq_of_lt (c (Fin.last n)).isLt,
      Nat.mod_eq_of_lt (b (Fin.last n)).isLt, Nat.mod_eq_of_lt (c (Fin.last n)).isLt,
      add_zero, add_zero]
  · rw [hrows, hrows']
    exact Basis.number_lt b
  · rw [hcols, hcols']
    exact Basis.number_lt c

theorem embedFactors_eq_ok (h : ∀ f ∈ factors, f.1 < n ∧ f.2.rows = 2 ∧ f.2.cols = 2) :
    embedFactors factors n = .ok (tensor factors n) := by
  have hplaced : factors.findSome? (placementError? n) = none := by
    rw [List.findSome?_eq_none_iff]
    intro f hf
    obtain ⟨hq, hrows, hcols⟩ := h f hf
    simp [placementError?, hrows, hcols, hq]
  unfold embedFactors
  rw [hplaced]

theorem embed_eq_ok {op : Operator α} {q : ℕ} (hrows : op.rows = 2) (hcols : op.cols = 2)
    (hq : q < n) : embed op q n = .ok (tensor [(q, op)] n) :=
  embedFactors_eq_ok (by simp [hrows, hcols, hq])

section Factors

variable {P : Operator α → LocalMatrix → Prop} {op op' : Operator α} {A B : LocalMatrix} {q r : Fin n}

/-- What relates the identities and the given factors relates the factors of every qubit. -/
theorem forall_factorAt (hone : P (identity 2) 1) (hop : P op A) (s : Fin n) :
    P (factorAt [(q.val, op)] s) (Function.update (1 : Fin n → LocalMatrix) q A s) := by
  by_cases hs : s = q
  · subst hs
    simpa [factorAt] using hop
  · simpa [factorAt, Fin.val_inj, hs, Ne.symm hs] using hone

theorem forall_factorAt_pair (h : q ≠ r) (hone : P (identity 2) 1) (hop : P op A) (hop' : P op' B)
    (s : Fin n) :
    P (factorAt [(q.val, op), (r.val, op')] s)
      (Function.update (Function.update (1 : Fin n → LocalMatrix) q A) r B s) := by
  by_cases hs : s = q
  · subst hs
    simpa [factorAt, h] using hop
  · by_cases hs' : s = r
    · subst hs'
      simpa [factorAt, Fin.val_inj, h] using hop'
    · simpa [factorAt, Fin.val_inj, hs, hs', Ne.symm hs, Ne.symm hs'] using hone

end Factors

end Tensors

theorem actsAs_tensor {factors : List (ℕ × Operator ℝ)} {M : Fin n → LocalMatrix}
    (h : ∀ q : Fin n, (factorAt factors q).Represents (M q)) :
    (tensor factors n).ActsAs (tensorOf M) := by
  have hshape : ∀ q : Fin n, (factorAt factors q).rows = 2 ∧ (factorAt factors q).cols = 2 :=
    fun q => ⟨(h q).rows, (h q).cols⟩
  rw [actsAs_iff]
  refine ⟨(shape_tensor hshape).1, (shape_tensor hshape).2, fun b c => ?_⟩
  induction n with
  | zero =>
    rw [tensor, Basis.number, Basis.number, Operator.identity, entry_ofFn _ Nat.one_pos Nat.one_pos]
    simp [tensorOf]
  | succ n ih =>
    have hinit := ih (fun q => h q.castSucc) (fun q => hshape q.castSucc) (Fin.init b) (Fin.init c)
    have hlast : (factorAt factors n).Represents (M (Fin.last n)) := h (Fin.last n)
    rw [entry_tensor_succ hshape, Amplitude.toComplex_mul, hinit, hlast.entry, tensorOf, tensorOf,
      Fin.prod_univ_castSucc]
    rfl

variable {op op' : Operator ℝ} {A B : LocalMatrix}

theorem represents_two (a b c d : Amplitude ℝ) :
    (two a b c d).Represents !![a.toComplex, b.toComplex; c.toComplex, d.toComplex] := by
  refine ⟨rfl, rfl, fun i j => ?_⟩
  fin_cases i <;> fin_cases j <;> rfl

theorem actsAs_embed (q : Fin n) (hop : op.Represents A) :
    ∃ e, embed op q n = .ok e ∧ e.ActsAs (onQubit q A) := by
  refine ⟨tensor [(q, op)] n, embed_eq_ok hop.rows hop.cols q.isLt, ?_⟩
  rw [onQubit_eq_tensorOf]
  exact actsAs_tensor (forall_factorAt (P := Represents) Represents.identity hop)

theorem actsAs_embedFactors {q r : Fin n} (h : q ≠ r) (hop : op.Represents A)
    (hop' : op'.Represents B) :
    ∃ e, embedFactors [(q.val, op), (r.val, op')] n = .ok e ∧
      e.ActsAs (onPair q r (A ⊗ₖ B)) := by
  refine ⟨tensor [(q, op), (r, op')] n,
    embedFactors_eq_ok (by simp [hop.rows, hop.cols, hop'.rows, hop'.cols]), ?_⟩
  rw [onPair_eq_tensorOf h]
  exact actsAs_tensor (forall_factorAt_pair (P := Represents) h Represents.identity hop hop')

end Embedding
end Operator
end QubitPulse
