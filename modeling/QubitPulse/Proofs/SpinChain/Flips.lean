import QubitPulse.Proofs.SpinChain.Controls

/-!
# Where controls have entries

A control along x flips its qubit, an exchange flips both qubits of its pair, and a control along z
flips none. So off the diagonal no two controls of a chain have an entry at one position.
-/
namespace QubitPulse

open Matrix Kronecker

section Flips

variable {n : ℕ} {b c : Basis n}

/-- The qubits on which two basis states differ. -/
def differ (b c : Basis n) : Finset ℕ :=
  (Finset.univ.filter fun s => b s ≠ c s).map Fin.valEmbedding

theorem mem_differ {s : ℕ} : s ∈ differ b c ↔ ∃ q : Fin n, b q ≠ c q ∧ (q : ℕ) = s := by
  simp [differ]

theorem onQubit_ne_zero {q : Fin n} {A : LocalMatrix} (h : onQubit q A b c ≠ 0) :
    (∀ s, s ≠ q → b s = c s) ∧ A (b q) (c q) ≠ 0 := by
  unfold onQubit at h
  split_ifs at h with hsame
  · exact ⟨hsame, h⟩
  · exact absurd rfl h

theorem onPair_ne_zero {q r : Fin n} {A : PairMatrix} (h : onPair q r A b c ≠ 0) :
    (∀ s, s ≠ q → s ≠ r → b s = c s) ∧ A (b q, b r) (c q, c r) ≠ 0 := by
  unfold onPair at h
  split_ifs at h with hsame
  · exact ⟨hsame, h⟩
  · exact absurd rfl h

theorem ne_of_pauliX_ne_zero {i j : Fin 2} (h : pauliX i j ≠ 0) : i ≠ j := by
  revert h
  fin_cases i <;> fin_cases j <;> simp [pauliX]

theorem eq_of_pauliZ_ne_zero {i j : Fin 2} (h : pauliZ i j ≠ 0) : i = j := by
  revert h
  fin_cases i <;> fin_cases j <;> simp [pauliZ]

theorem ne_of_exchangeMatrix_ne_zero {i j k l : Fin 2} (h : exchangeMatrix (i, j) (k, l) ≠ 0) :
    i ≠ k ∧ j ≠ l := by
  revert h
  fin_cases i <;> fin_cases j <;> fin_cases k <;> fin_cases l <;>
    simp [exchangeMatrix, pauliX, pauliY]

/-- Where a control along x has an entry, it flips its qubit. -/
theorem differ_of_atQubit_pauliX {q : ℕ} (hq : q < n) (h : atQubit n q pauliX b c ≠ 0) :
    differ b c = {q} := by
  rw [atQubit, dif_pos hq] at h
  obtain ⟨hsame, hentry⟩ := onQubit_ne_zero h
  ext s
  rw [mem_differ, Finset.mem_singleton]
  constructor
  · rintro ⟨r, hr, rfl⟩
    by_contra hne
    exact hr (hsame r fun heq => hne (congrArg Fin.val heq))
  · rintro rfl
    exact ⟨⟨s, hq⟩, ne_of_pauliX_ne_zero hentry, rfl⟩

/-- A control along z has entries on the diagonal alone. -/
theorem eq_of_atQubit_pauliZ {q : ℕ} (hq : q < n) (h : atQubit n q pauliZ b c ≠ 0) : b = c := by
  rw [atQubit, dif_pos hq] at h
  obtain ⟨hsame, hentry⟩ := onQubit_ne_zero h
  funext s
  by_cases hs : s = ⟨q, hq⟩
  · subst hs
    exact eq_of_pauliZ_ne_zero hentry
  · exact hsame s hs

/-- Where an exchange has an entry, it flips both qubits of its pair. -/
theorem differ_of_atPair {p : ℕ × ℕ} (hp : p.1 < n ∧ p.2 < n)
    (h : atPair n p.1 p.2 exchangeMatrix b c ≠ 0) : differ b c = {p.1, p.2} := by
  rw [atPair, dif_pos hp] at h
  obtain ⟨hsame, hentry⟩ := onPair_ne_zero h
  obtain ⟨hfirst, hsecond⟩ := ne_of_exchangeMatrix_ne_zero hentry
  ext s
  rw [mem_differ, Finset.mem_insert, Finset.mem_singleton]
  constructor
  · rintro ⟨r, hr, rfl⟩
    by_contra hne
    rw [not_or] at hne
    exact hr (hsame r (fun heq => hne.1 (congrArg Fin.val heq))
      fun heq => hne.2 (congrArg Fin.val heq))
  · rintro (rfl | rfl)
    · exact ⟨⟨_, hp.1⟩, hfirst, rfl⟩
    · exact ⟨⟨_, hp.2⟩, hsecond, rfl⟩

end Flips

section Reals

variable {n : ℕ}

theorem im_one_apply (b c : Basis n) : ((1 : Matrix (Basis n) (Basis n) ℂ) b c).im = 0 := by
  rw [Matrix.one_apply]
  split_ifs <;> rfl

theorem im_atQubit {A : LocalMatrix} (hA : ∀ i j, (A i j).im = 0) (q : ℕ) (b c : Basis n) :
    (atQubit n q A b c).im = 0 := by
  unfold atQubit
  split_ifs
  · unfold onQubit
    split_ifs
    · exact hA _ _
    · rfl
  · exact im_one_apply b c

theorem im_atPair {A : PairMatrix} (hA : ∀ i j, (A i j).im = 0) (q r : ℕ) (b c : Basis n) :
    (atPair n q r A b c).im = 0 := by
  unfold atPair
  split_ifs
  · unfold onPair
    split_ifs
    · exact hA _ _
    · rfl
  · exact im_one_apply b c

theorem im_pauliX (i j : Fin 2) : (pauliX i j).im = 0 := by
  fin_cases i <;> fin_cases j <;> simp [pauliX]

theorem im_pauliZ (i j : Fin 2) : (pauliZ i j).im = 0 := by
  fin_cases i <;> fin_cases j <;> simp [pauliZ]

theorem im_exchangeMatrix (x y : Fin 2 × Fin 2) : (exchangeMatrix x y).im = 0 := by
  obtain ⟨i, j⟩ := x
  obtain ⟨k, l⟩ := y
  fin_cases i <;> fin_cases j <;> fin_cases k <;> fin_cases l <;>
    simp [exchangeMatrix, pauliX, pauliY]

end Reals

namespace SpinChain

variable {n : ℕ} {couplings : List (ℕ × ℕ)}

/-- The couplings of a chain are different pairs. -/
theorem pairwise_couplings {layout : ChainLayout} (hn : n ≤ mostQubits) :
    (layout.couplings n).Pairwise fun p p' => ({p.1, p.2} : Finset ℕ) ≠ {p'.1, p'.2} := by
  unfold mostQubits at hn
  interval_cases n <;> cases layout <;> decide

/-- Off the diagonal, at most one control has an entry at a position. -/
theorem pairwise_controlMatrices
    (hcouplings : ∀ p ∈ couplings, p.1 < n ∧ p.2 < n ∧ p.1 ≠ p.2)
    (hpairs : couplings.Pairwise fun p p' => ({p.1, p.2} : Finset ℕ) ≠ {p'.1, p'.2})
    {b c : Basis n} (hne : b ≠ c) :
    (controlMatrices n couplings).Pairwise fun H H' => H b c = 0 ∨ H' b c = 0 := by
  have hx : ∀ q ∈ List.range n, atQubit n q pauliX b c ≠ 0 → differ b c = {q} := fun q hq =>
    differ_of_atQubit_pauliX (List.mem_range.mp hq)
  have hz : ∀ q ∈ List.range n, atQubit n q pauliZ b c = 0 := fun q hq =>
    not_not.mp fun h => hne (eq_of_atQubit_pauliZ (List.mem_range.mp hq) h)
  have he : ∀ p ∈ couplings, atPair n p.1 p.2 exchangeMatrix b c ≠ 0 → differ b c = {p.1, p.2} :=
    fun p hp => differ_of_atPair ⟨(hcouplings p hp).1, (hcouplings p hp).2.1⟩
  have hsingle : ∀ q, ∀ p ∈ couplings, ({q} : Finset ℕ) ≠ {p.1, p.2} := by
    intro q p hp heq
    have hcard := congrArg Finset.card heq
    rw [Finset.card_singleton, Finset.card_pair (hcouplings p hp).2.2] at hcard
    omega
  unfold controlMatrices
  simp only [List.pairwise_append, List.pairwise_map, List.forall_mem_append, List.forall_mem_map,
    or_iff_not_imp_left, ← ne_eq]
  refine ⟨⟨?_, ?_, ?_⟩, ?_, ?_, ?_⟩
  · refine List.nodup_range.imp_of_mem fun {q q'} hq hq' hdistinct h => ?_
    by_contra h'
    exact hdistinct (Finset.singleton_injective ((hx q hq h).symm.trans (hx q' hq' h')))
  · exact List.pairwise_of_forall_mem_list fun q hq _ _ h => absurd (hz q hq) h
  · exact fun q _ q' hq' _ => hz q' hq'
  · refine hpairs.imp_of_mem fun {p p'} hp hp' hdistinct h => ?_
    by_contra h'
    exact hdistinct ((he p hp h).symm.trans (he p' hp' h'))
  · intro q hq p hp h
    by_contra h'
    exact hsingle q p hp ((hx q hq h).symm.trans (he p hp h'))
  · exact fun q hq p _ h => absurd (hz q hq) h

theorem im_controlMatrices : ∀ H ∈ controlMatrices n couplings, ∀ b c, (H b c).im = 0 :=
  forall_mem_controlMatrices.mpr ⟨fun q _ => im_atQubit im_pauliX q, fun q _ => im_atQubit im_pauliZ q,
    fun p _ => im_atPair im_exchangeMatrix p.1 p.2⟩

end SpinChain

end QubitPulse
