import Mathlib
import QubitPulse.Proofs.Exact.Locality
import QubitPulse.Proofs.Exact.State
import QubitPulse.Proofs.SpinChain.Hermitian

/-!
# Operators placed bit by bit

An entry of an operator that is made of factors on single qubits is a product of one entry of each factor,
picked by the bits of the row and of the column. Placing an operator on a qubit keeps products and
adjoints, and operators on different qubits are placed in any order.
-/
namespace QubitPulse

open Matrix

/-- The bit of a basis state at a qubit; qubit 0 is the most significant one. -/
def qubitBit (n q i : ℕ) : Fin 2 := if i.testBit (n - 1 - q) then 1 else 0

namespace Basis

/-- The bits of a number are the values of the qubits. -/
theorem qubitBit_number {n : ℕ} (b : Basis n) (q : Fin n) : qubitBit n q (number n b) = b q := by
  induction n with
  | zero => exact q.elim0
  | succ n ih =>
    unfold qubitBit number
    cases q using Fin.lastCases with
    | last =>
      have hbit : ∀ v : Fin 2, (if (2 * number n (Fin.init b) + v).testBit 0 then 1 else 0 : Fin 2) = v := by
        intro v
        rw [Nat.testBit_zero, Nat.mul_add_mod]
        fin_cases v <;> rfl
      rw [Fin.val_last, Nat.add_sub_cancel, Nat.sub_self]
      exact hbit _
    | cast q =>
      have hplace : n + 1 - 1 - q.castSucc.val = n - 1 - q + 1 := by
        rw [Fin.val_castSucc]
        omega
      rw [hplace, Nat.testBit_add_one, Nat.mul_add_div two_pos,
        Nat.div_eq_of_lt (b (Fin.last n)).isLt, add_zero]
      exact ih (Fin.init b) q

end Basis

namespace Operator

/-- The matrix that is listed first for a qubit. A qubit that is not listed is left alone. -/
noncomputable def listedMatrix (q : ℕ) : List (ℕ × Operator ℝ) → LocalMatrix
  | [] => 1
  | (r, op) :: rest => if r = q then op.toMatrix 2 2 else listedMatrix q rest

theorem Represents.toMatrix_eq {m n : ℕ} {a : Operator ℝ} {M : Matrix (Fin m) (Fin n) ℂ}
    (h : a.Represents M) : a.toMatrix m n = M := by
  ext i j
  exact h.entry i j

theorem represents_factorAt {factors : List (ℕ × Operator ℝ)}
    (h : ∀ f ∈ factors, f.2.rows = 2 ∧ f.2.cols = 2) (q : ℕ) :
    (factorAt factors q).Represents (listedMatrix q factors) := by
  induction factors with
  | nil => exact Represents.identity
  | cons f rest ih =>
    obtain ⟨hrows, hcols⟩ := h f List.mem_cons_self
    have hrest := ih fun g hg => h g (List.mem_cons_of_mem _ hg)
    unfold listedMatrix
    by_cases hq : f.1 = q
    · rw [if_pos hq]
      simpa [factorAt, List.find?_cons, hq] using represents_toMatrix hrows hcols
    · rw [if_neg hq]
      simpa [factorAt, List.find?_cons, hq] using hrest

/-- The operator has the entries that the bits of their places pick from the factors of a list. -/
structure PlacedBitwise (e : Operator ℝ) (factors : List (ℕ × Operator ℝ)) (n : ℕ) : Prop where
  rows : e.rows = 2 ^ n
  cols : e.cols = 2 ^ n
  entry : ∀ i < 2 ^ n, ∀ j < 2 ^ n, (e.entry i j).toComplex =
    ∏ q : Fin n, listedMatrix q factors (qubitBit n q i) (qubitBit n q j)

theorem placedBitwise_tensor {factors : List (ℕ × Operator ℝ)} {n : ℕ}
    (h : ∀ f ∈ factors, f.2.rows = 2 ∧ f.2.cols = 2) : (tensor factors n).PlacedBitwise factors n := by
  obtain ⟨hrows, hcols, hentry⟩ := actsAs_iff.mp
    (actsAs_tensor fun q : Fin n => represents_factorAt h q)
  refine ⟨hrows, hcols, fun i hi j hj => ?_⟩
  obtain ⟨b, rfl⟩ := Basis.exists_number_eq hi
  obtain ⟨c, rfl⟩ := Basis.exists_number_eq hj
  rw [hentry, tensorOf]
  simp only [Basis.qubitBit_number]

section Laws

variable {n : ℕ} {op op' e e' : Operator ℝ} {A B : LocalMatrix} {q r : Fin n}

/-- The placed operator is the one that acts on the qubit. -/
theorem embed_eq_ok_iff (hop : op.Represents A) :
    embed op q n = .ok e ↔ e.ActsAs (onQubit q A) := by
  obtain ⟨placed, hplaced, hacts⟩ := actsAs_embed q hop
  rw [hplaced, Except.ok.injEq]
  exact ⟨fun h => h ▸ hacts, fun h => Represents.unique hacts h⟩

/-- Placing a pair of operators is placing one and placing the other. -/
theorem embedFactors_pair_eq_ok_iff (h : q ≠ r) (hop : op.Represents A) (hop' : op'.Represents B) :
    embedFactors [(q.val, op), (r.val, op')] n = .ok e ↔ e.ActsAs (onQubit q A * onQubit r B) := by
  obtain ⟨placed, hplaced, hacts⟩ := actsAs_embedFactors h hop hop'
  rw [onPair_kronecker h] at hacts
  rw [hplaced, Except.ok.injEq]
  exact ⟨fun h => h ▸ hacts, fun h => Represents.unique hacts h⟩

theorem embed_mul (hop : op.Represents A) (hop' : op'.Represents B) (he : embed op q n = .ok e)
    (he' : embed op' q n = .ok e') : embed (op.mul op') q n = .ok (e.mul e') := by
  rw [embed_eq_ok_iff hop] at he
  rw [embed_eq_ok_iff hop'] at he'
  rw [embed_eq_ok_iff (hop.mul hop'), ← onQubit_mul]
  exact he.mul he'

theorem embed_dagger (hop : op.Represents A) (he : embed op q n = .ok e) :
    embed op.dagger q n = .ok e.dagger := by
  rw [embed_eq_ok_iff hop] at he
  rw [embed_eq_ok_iff hop.dagger, ← conjTranspose_onQubit]
  exact he.dagger

theorem embed_commute (h : q ≠ r) (hop : op.Represents A) (hop' : op'.Represents B)
    (he : embed op q n = .ok e) (he' : embed op' r n = .ok e') : e.mul e' = e'.mul e := by
  rw [embed_eq_ok_iff hop] at he
  rw [embed_eq_ok_iff hop'] at he'
  refine Represents.unique (he.mul he') ?_
  rw [(onQubit_commute h A B).eq]
  exact he'.mul he

theorem embedFactors_pair (h : q ≠ r) (hop : op.Represents A) (hop' : op'.Represents B)
    (he : embed op q n = .ok e) (he' : embed op' r n = .ok e') :
    embedFactors [(q.val, op), (r.val, op')] n = .ok (e.mul e') := by
  rw [embed_eq_ok_iff hop] at he
  rw [embed_eq_ok_iff hop'] at he'
  exact (embedFactors_pair_eq_ok_iff h hop hop').mpr (he.mul he')

end Laws

section Register

variable {n : ℕ}

theorem exists_embed_iff {q : ℕ} {A : Operator ℝ} :
    (∃ a, embed A q n = .ok a) ↔ q < n ∧ A.rows = 2 ∧ A.cols = 2 := by
  constructor
  · rintro ⟨a, ha⟩
    unfold embed embedFactors at ha
    split at ha
    · cases ha
    · next hplaced =>
      rw [List.findSome?_eq_none_iff] at hplaced
      have hplaced := hplaced _ (List.mem_singleton_self _)
      unfold placementError? at hplaced
      dsimp only at hplaced
      split_ifs at hplaced with hq hshape
      simp only [Bool.or_eq_true, decide_eq_true_eq, not_or, not_not] at hshape
      exact ⟨not_le.mp hq, hshape⟩
  · rintro ⟨hq, hrows, hcols⟩
    exact ⟨_, embed_eq_ok hrows hcols hq⟩

/-- An operator that was placed is on a qubit of the register, and acts on one qubit. -/
theorem represents_of_embed {q : ℕ} {A a : Operator ℝ} (ha : embed A q n = .ok a) :
    q < n ∧ A.Represents (A.toMatrix 2 2) := by
  obtain ⟨hq, hrows, hcols⟩ := exists_embed_iff.mp ⟨a, ha⟩
  exact ⟨hq, represents_toMatrix hrows hcols⟩

/-- Placing operators on a register keeps products and adjoints, and does not depend on an order. -/
structure PlacementLaws (n : ℕ) : Prop where
  placed : ∀ {q : ℕ} {A : Operator ℝ}, q < n → A.rows = 2 → A.cols = 2 → ∃ a, embed A q n = .ok a
  mul : ∀ {q : ℕ} {A B a b : Operator ℝ}, embed A q n = .ok a → embed B q n = .ok b →
    embed (A.mul B) q n = .ok (a.mul b)
  dagger : ∀ {q : ℕ} {A a : Operator ℝ}, embed A q n = .ok a → embed A.dagger q n = .ok a.dagger
  commute : ∀ {q r : ℕ} {A B a b : Operator ℝ}, q ≠ r → embed A q n = .ok a → embed B r n = .ok b →
    a.mul b = b.mul a
  pair : ∀ {q r : ℕ} {A B a b : Operator ℝ}, q ≠ r → embed A q n = .ok a → embed B r n = .ok b →
    embedFactors [(q, A), (r, B)] n = .ok (a.mul b) ∧ embedFactors [(r, B), (q, A)] n = .ok (a.mul b)

theorem placementLaws (n : ℕ) : PlacementLaws n where
  placed hq hrows hcols := exists_embed_iff.mpr ⟨hq, hrows, hcols⟩
  mul ha hb := by
    obtain ⟨hq, hA⟩ := represents_of_embed ha
    obtain ⟨-, hB⟩ := represents_of_embed hb
    exact embed_mul (q := ⟨_, hq⟩) hA hB ha hb
  dagger ha := by
    obtain ⟨hq, hA⟩ := represents_of_embed ha
    exact embed_dagger (q := ⟨_, hq⟩) hA ha
  commute h ha hb := by
    obtain ⟨hq, hA⟩ := represents_of_embed ha
    obtain ⟨hr, hB⟩ := represents_of_embed hb
    exact embed_commute (q := ⟨_, hq⟩) (r := ⟨_, hr⟩) (Fin.ne_of_val_ne h) hA hB ha hb
  pair h ha hb := by
    obtain ⟨hq, hA⟩ := represents_of_embed ha
    obtain ⟨hr, hB⟩ := represents_of_embed hb
    have hne : (⟨_, hq⟩ : Fin n) ≠ ⟨_, hr⟩ := Fin.ne_of_val_ne h
    refine ⟨embedFactors_pair hne hA hB ha hb, ?_⟩
    rw [embed_commute hne hA hB ha hb]
    exact embedFactors_pair hne.symm hB hA hb ha

/-- Factors are placed bit by bit. So placing one is multiplicative and keeps adjoints, and two on different
qubits are the product of both in either order. -/
theorem embedding_places_bitwise (n : ℕ) :
    (∀ factors : List (ℕ × Operator ℝ), (∀ f ∈ factors, f.1 < n ∧ f.2.rows = 2 ∧ f.2.cols = 2) →
      ∃ e, embedFactors factors n = .ok e ∧ e.PlacedBitwise factors n) ∧ PlacementLaws n :=
  ⟨fun factors h => ⟨tensor factors n, embedFactors_eq_ok h,
    placedBitwise_tensor fun f hf => (h f hf).2⟩, placementLaws n⟩

/-- Of two factors on the last of three qubits the first one counts. -/
theorem embedding_places_bitwise_on_three_qubits :
    ∃ e, embedFactors [(2, sigmaX), (0, sigmaZ), (2, sigmaY)] 3 = .ok e ∧
      (e.entry 4 5).toComplex = -1 ∧ (e.entry 4 7).toComplex = 0 := by
  obtain ⟨e, he, hplaced⟩ := (embedding_places_bitwise 3).1
    [(2, sigmaX), (0, sigmaZ), (2, sigmaY)] (by simp [sigmaX, sigmaY, sigmaZ, two])
  have hentry := hplaced.entry
  have hlisted : listedMatrix 0 [(2, sigmaX), (0, sigmaZ), (2, sigmaY)] = pauliZ ∧
      listedMatrix 1 [(2, sigmaX), (0, sigmaZ), (2, sigmaY)] = 1 ∧
      listedMatrix 2 [(2, sigmaX), (0, sigmaZ), (2, sigmaY)] = pauliX :=
    ⟨SpinChain.represents_sigmaZ.toMatrix_eq, rfl, SpinChain.represents_sigmaX.toMatrix_eq⟩
  have hbits : ∀ q : Fin 3, qubitBit 3 q 4 = ![1, 0, 0] q ∧ qubitBit 3 q 5 = ![1, 0, 1] q ∧
      qubitBit 3 q 7 = ![1, 1, 1] q := by decide
  refine ⟨e, he, ?_, ?_⟩
  · rw [hentry 4 (by decide) 5 (by decide)]
    simp [Fin.prod_univ_three, hbits, hlisted, pauliX, pauliZ]
  · rw [hentry 4 (by decide) 7 (by decide)]
    simp [Fin.prod_univ_three, hbits, hlisted]

end Register
end Operator
end QubitPulse
