import QubitPulse.Proofs.SpinChain.Flips
import QubitPulse.Proofs.SpinChain.StoredControls

/-!
# Hamiltonians in doubles

A sum of controls with finite weights rounds at every step, and a weight can take it out of range. But at
one position of the matrix at most one control that flips qubits has an entry, so no two infinities
meet, and the sum is the same across the diagonal. To pass over a weight of zero changes no sum.
-/
namespace QubitPulse

/-! ## Weighted sums -/

section Sums

variable {n : ℕ} {b c : Basis n}

theorem Operator.Stores.reads {a : Operator Float} {M : Matrix (Basis n) (Basis n) ℂ} (h : a.Stores M)
    (hreal : (M b c).im = 0) :
    (a.entry (Basis.number n b) (Basis.number n c)).Reads ⟨⌊(M b c).re⌋, 0⟩ := by
  obtain ⟨g, hg, hvalue⟩ := h.entry b c
  have hre : ⌊(M b c).re⌋ = g.re := by
    rw [← hvalue, ← GaussianInt.intCast_re, Int.floor_intCast]
  have him : g.im = 0 := by
    rw [← hvalue, ← GaussianInt.intCast_im] at hreal
    exact_mod_cast hreal
  rw [hre, ← him]
  exact hg

/-- A weighted real integer changes the real part of a sum alone. -/
theorem Amplitude.add_weighted {total z : Amplitude Float} {x : Float} {k : ℤ}
    (hre : total.re ≠ -0.0) (him : total.im ≠ -0.0) (hx : Scalar.isFinite x = true)
    (hz : z.Reads ⟨k, 0⟩) :
    total + ofReal x * z = ⟨total.re + x * Float.ofInt k, total.im⟩ := by
  have hzero : Double.Vanishes Scalar.zero := Double.vanishes_iff.mpr rfl
  have hproduct : Double.Vanishes (x * z.im + Scalar.zero * z.re) :=
    (hz.im.vanishes.mul_left hx).add (hzero.mul_right hz.re.isFinite)
  have hsum : total + ofReal x * z =
      ⟨total.re + (x * z.re - Scalar.zero * z.im), total.im + (x * z.im + Scalar.zero * z.re)⟩ := rfl
  rw [hsum, Double.add_weighted hre hx hz.re (hzero.mul_right hz.im.isFinite),
    Double.add_vanishing him hproduct]

/-- Entries of all matrices at a position, each rounded down. -/
noncomputable def entriesAt (Hs : List (Matrix (Basis n) (Basis n) ℂ)) (b c : Basis n) : List ℤ :=
  Hs.map fun H => ⌊(H b c).re⌋

/-- Sum of integers with weights, from a first value on. -/
def weighted (start : Float) (terms : List (ℤ × Float)) : Float :=
  terms.foldl (fun total term => total + term.2 * Float.ofInt term.1) start

/-- At every position, the sum of controls is that of their entries. -/
theorem entry_foldl {step : Operator Float → ControlOperator Float × Float → Operator Float}
    (hstep : EvolutionProblem.Adds step) {controls : List (ControlOperator Float)}
    {Hs : List (Matrix (Basis n) (Basis n) ℂ)}
    (hstores : List.Forall₂ (fun control H => control.matrix.Stores H) controls Hs)
    (hreal : ∀ H ∈ Hs, (H b c).im = 0) {column : List Float}
    (hfinite : ∀ x ∈ column, Scalar.isFinite x = true) {h : Operator Float}
    (hrows : h.rows = registerDim n) (hcols : h.cols = registerDim n) {start : Float}
    (hstart : start ≠ -0.0) (hentry : h.entry (Basis.number n b) (Basis.number n c) = ⟨start, 0.0⟩) :
    ((controls.zip column).foldl step h).entry (Basis.number n b) (Basis.number n c) =
      ⟨weighted start ((entriesAt Hs b c).zip column), 0.0⟩ := by
  -- The sum so far is never the negative zero, so that a zero of either sign leaves it as it is.
  induction hstores generalizing column h start with
  | nil => exact hentry
  | @cons control H controls Hs hH hrest ih =>
    cases column with
    | nil => exact hentry
    | cons x column =>
      have hx := hfinite x (by simp)
      have hreads := hH.reads (hreal H (by simp))
      have hterm : (step h (control, x)).entry (Basis.number n b) (Basis.number n c) =
          ⟨start + x * Float.ofInt ⌊(H b c).re⌋, 0.0⟩ := by
        rcases hstep h (control, x) with hsum | ⟨hzero, hsum⟩
        · rw [hsum, EvolutionProblem.addMultiple, Operator.entry_ofFn _ (hrows ▸ Basis.number_lt b)
            (hcols ▸ Basis.number_lt c), hentry]
          exact Amplitude.add_weighted hstart Double.zero_ne_negZero hx hreads
        · have hvanishes : Double.Vanishes (x * Float.ofInt ⌊(H b c).re⌋) :=
            (Double.vanishes_iff.mpr hzero).mul_right (Double.isFinite_ofInt hreads.re)
          rw [hsum, hentry, Double.add_vanishing hstart hvanishes]
      obtain ⟨hrows', hcols'⟩ := hstep.shape h (control, x)
      exact ih (fun H hH => hreal H (by simp [hH])) (fun x hx => hfinite x (by simp [hx]))
        (hrows'.trans hrows) (hcols'.trans hcols) (Double.add_ne_negZero hstart _) hterm

theorem weighted_of_zero {terms : List (ℤ × Float)}
    (h : ∀ term ∈ terms, term.1 = 0 ∧ Scalar.isFinite term.2 = true) {start : Float}
    (hstart : start ≠ -0.0) : weighted start terms = start := by
  induction terms with
  | nil => rfl
  | cons term terms ih =>
    obtain ⟨hzero, hfinite⟩ := h term (by simp)
    change weighted (start + term.2 * Float.ofInt term.1) terms = start
    rw [hzero, Double.add_mul_ofInt_zero hstart hfinite]
    exact ih fun term hterm => h term (by simp [hterm])

/-- A sum of finite doubles is a number. -/
theorem isNaN_weighted_of_units {terms : List (ℤ × Float)}
    (h : ∀ term ∈ terms, term.1.natAbs ≤ 1 ∧ Scalar.isFinite term.2 = true) {start : Float}
    (hstart : Scalar.isNaN start = false) : Scalar.isNaN (weighted start terms) = false := by
  induction terms generalizing start with
  | nil => exact hstart
  | cons term terms ih =>
    obtain ⟨hunit, hfinite⟩ := h term (by simp)
    have hproduct := Double.isFinite_mul_ofInt hfinite hunit
    exact ih (fun term hterm => h term (by simp [hterm]))
      (Double.isNaN_add hstart (Double.isNaN_of_isFinite hproduct) (.inr hproduct))

/-- A single product may be infinite and still leave a number. -/
theorem isNaN_weighted_of_pairwise {ks : List ℤ} (hpairs : ks.Pairwise fun k l => k = 0 ∨ l = 0)
    (hks : ∀ k ∈ ks, Scalar.isFinite (Float.ofInt k) = true) {column : List Float}
    (hcolumn : ∀ x ∈ column, Scalar.isFinite x = true) {start : Float} (hstart : start ≠ -0.0)
    (hfinite : Scalar.isFinite start = true) :
    Scalar.isNaN (weighted start (ks.zip column)) = false := by
  induction ks generalizing column with
  | nil => exact Double.isNaN_of_isFinite hfinite
  | cons k ks ih =>
    cases column with
    | nil => exact Double.isNaN_of_isFinite hfinite
    | cons x column =>
      obtain ⟨hk, hpairs⟩ := List.pairwise_cons.mp hpairs
      have hx := hcolumn x (by simp)
      have hcolumn : ∀ x ∈ column, Scalar.isFinite x = true := fun x hx => hcolumn x (by simp [hx])
      change Scalar.isNaN (weighted (start + x * Float.ofInt k) (ks.zip column)) = false
      by_cases hzero : k = 0
      · rw [hzero, Double.add_mul_ofInt_zero hstart hx]
        exact ih hpairs (fun k hk => hks k (by simp [hk])) hcolumn
      · -- The product may be out of range, but nothing is added to it any more.
        have hrest : ∀ term ∈ ks.zip column, term.1 = 0 ∧ Scalar.isFinite term.2 = true := by
          intro term hterm
          obtain ⟨hl, hy⟩ := List.of_mem_zip hterm
          exact ⟨(hk term.1 hl).resolve_left hzero, hcolumn term.2 hy⟩
        rw [weighted_of_zero hrest (Double.add_ne_negZero hstart _)]
        exact Double.isNaN_add (Double.isNaN_of_isFinite hfinite)
          (Double.isNaN_mul hx (hks k (by simp))) (.inl hfinite)

end Sums

namespace SpinChain

variable {n : ℕ} {couplings : List (ℕ × ℕ)}

theorem entriesAt_comm (b c : Basis n) :
    entriesAt (controlMatrices n couplings) c b = entriesAt (controlMatrices n couplings) b c := by
  refine List.map_congr_left fun H hH => ?_
  have hentry := congrArg Complex.re ((isHermitian_controlMatrices H hH).apply b c)
  rw [Complex.star_def, Complex.conj_re] at hentry
  rw [hentry]

/-- On the diagonal a control along z has a sign, and no other control has an entry. -/
theorem natAbs_entriesAt_self (hcouplings : ∀ p ∈ couplings, p.1 < n ∧ p.2 < n ∧ p.1 ≠ p.2)
    (b : Basis n) : ∀ k ∈ entriesAt (controlMatrices n couplings) b b, k.natAbs ≤ 1 := by
  have hsame : differ b b = ∅ := by simp [differ]
  have hzero : ∀ {H : Matrix (Basis n) (Basis n) ℂ}, H b b = 0 → ⌊(H b b).re⌋.natAbs ≤ 1 := by
    intro H h
    simp [h]
  refine List.forall_mem_map.mpr (forall_mem_controlMatrices.mpr ⟨fun q hq => ?_, fun q hq => ?_,
    fun p hp => ?_⟩)
  · refine hzero (not_not.mp fun h => ?_)
    exact Finset.singleton_ne_empty q ((differ_of_atQubit_pauliX hq h).symm.trans hsame)
  · rw [atQubit, dif_pos hq, onQubit, if_pos fun _ _ => rfl]
    generalize b ⟨q, hq⟩ = i
    fin_cases i <;> norm_num [pauliZ]
  · refine hzero (not_not.mp fun h => ?_)
    have hp := hcouplings p hp
    exact Finset.insert_ne_empty _ _ ((differ_of_atPair ⟨hp.1, hp.2.1⟩ h).symm.trans hsame)

variable {layout : ChainLayout} {given : ChainStrengths Float} {c : SpinChain Float}

/-- No entry of a Hamiltonian is a sum of infinities with both signs. -/
theorem isNaN_weighted_entriesAt (h : build n layout given = .ok c) {column : List Float}
    (hcolumn : ∀ x ∈ column, Scalar.isFinite x = true) (b b' : Basis n) :
    Scalar.isNaN (weighted 0.0
      ((entriesAt (controlMatrices n (layout.couplings n)) b b').zip column)) = false := by
  have hcouplings : ∀ p ∈ layout.couplings n, p.1 < n ∧ p.2 < n ∧ p.1 ≠ p.2 := fun _ =>
    lt_of_mem_couplings
  have hstart : Scalar.isFinite (0.0 : Float) = true := Double.Reads.zero.isFinite
  by_cases hsame : b = b'
  · subst hsame
    refine isNaN_weighted_of_units (fun term hterm => ?_) (Double.isNaN_of_isFinite hstart)
    obtain ⟨hk, hx⟩ := List.of_mem_zip hterm
    exact ⟨natAbs_entriesAt_self hcouplings b term.1 hk, hcolumn term.2 hx⟩
  · refine isNaN_weighted_of_pairwise ?_ ?_ hcolumn Double.zero_ne_negZero hstart
    · obtain ⟨-, hn, -⟩ := build_eq_ok.mp h
      have hpairs : (layout.couplings n).Pairwise _ := pairwise_couplings hn
      refine List.pairwise_map.mpr ((pairwise_controlMatrices hcouplings hpairs hsame).imp ?_)
      rintro H H' (hzero | hzero)
      · exact .inl (by simp [hzero])
      · exact .inr (by simp [hzero])
    · intro k hk
      obtain ⟨H, hH, rfl⟩ := List.mem_map.mp hk
      obtain ⟨m, rfl⟩ := List.mem_iff_get.mp hH
      have hstored := stores_of_build h
      have hstores := hstored.get (m.isLt.trans_eq hstored.length_eq.symm) m.isLt
      exact Double.isFinite_ofInt (hstores.reads (im_controlMatrices _ hH b b')).re

theorem entry_foldl_of_build {step : Operator Float → ControlOperator Float × Float → Operator Float}
    (hstep : EvolutionProblem.Adds step) (h : build n layout given = .ok c) {column : List Float}
    (hcolumn : ∀ x ∈ column, Scalar.isFinite x = true) (b b' : Basis n) :
    ((c.controls.zip column).foldl step (Operator.zero (registerDim n) (registerDim n))).entry
        (Basis.number n b) (Basis.number n b') =
      ⟨weighted 0.0 ((entriesAt (controlMatrices n (layout.couplings n)) b b').zip column), 0.0⟩ := by
  refine entry_foldl hstep (stores_of_build h) (fun H hH => im_controlMatrices H hH b b') hcolumn
    rfl rfl Double.zero_ne_negZero ?_
  rw [Operator.zero, Operator.entry_ofFn _ (Basis.number_lt b) (Basis.number_lt b')]
  rfl

/-- The Hamiltonian of a chain in doubles: to pass over weights of zero changes nothing, and it is
Hermitian. -/
theorem weightedSum_of_build (h : build n layout given = .ok c) {column : List Float}
    (hcolumn : ∀ x ∈ column, Scalar.isFinite x = true) :
    EvolutionProblem.weightedSum (registerDim n) (c.controls.zip column) =
        EvolutionProblem.sumOfAll (registerDim n) (c.controls.zip column) ∧
      (EvolutionProblem.weightedSum (registerDim n) (c.controls.zip column)).Hermitian := by
  obtain ⟨hrows, hcols⟩ := EvolutionProblem.shape_weightedSum (registerDim n) (c.controls.zip column)
  obtain ⟨hrows', hcols'⟩ := EvolutionProblem.shape_sumOfAll (registerDim n) (c.controls.zip column)
  have hentry := entry_foldl_of_build EvolutionProblem.adds_addTerm h hcolumn
  constructor
  · refine Operator.ext_of_entry (hrows.trans hrows'.symm) (hcols.trans hcols'.symm) ?_
    intro i hi j hj
    obtain ⟨b, rfl⟩ := Basis.exists_number_eq (hi.trans_eq hrows)
    obtain ⟨b', rfl⟩ := Basis.exists_number_eq (hj.trans_eq hcols)
    exact (hentry b b').trans
      (entry_foldl_of_build EvolutionProblem.adds_addMultiple h hcolumn b b').symm
  · refine ⟨hrows.trans hcols.symm, fun i hi j hj => ?_, fun i hi j hj => ?_⟩
    all_goals
      obtain ⟨b, rfl⟩ := Basis.exists_number_eq (hi.trans_eq hrows)
      obtain ⟨b', rfl⟩ := Basis.exists_number_eq (hj.trans_eq hcols)
      have hback : (EvolutionProblem.weightedSum (registerDim n) (c.controls.zip column)).entry
          (Basis.number n b') (Basis.number n b) = _ := hentry b' b
      have hforth : (EvolutionProblem.weightedSum (registerDim n) (c.controls.zip column)).entry
          (Basis.number n b) (Basis.number n b') = _ := hentry b b'
      rw [hback, hforth]
    · rw [entriesAt_comm]
      exact Double.eq_self_of_isNaN (isNaN_weighted_entriesAt h hcolumn b b')
    · have hzeros : Scalar.eq (0.0 : Float) (-0.0) = true := rfl
      exact hzeros

end SpinChain

end QubitPulse
