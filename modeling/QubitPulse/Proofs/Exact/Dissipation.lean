import Mathlib
import QubitPulse.Evolution.Dissipation
import QubitPulse.Proofs.Exact.Extended
import QubitPulse.Proofs.SpinChain.Controls

/-!
# Collapse operators reproduce the times of relaxation and coherence

A qubit relaxes at the rate `a ^ 2` of its lowering operator and loses coherence at the rate
`a ^ 2 / 2 + 2 * b ^ 2` of both its operators. In exact arithmetic these are the inverses of the two times that
the noise was made from, for every combination of times that are absent, finite or infinite.
-/
namespace QubitPulse

/-- Takes the second basis state to the first. -/
def lowering : LocalMatrix := !![0, 1; 0, 0]

namespace Operator

variable {n : ℕ}

/-- An operator of finite numbers that acts as this matrix. -/
def ActsFinitelyAs (e : Operator Extended) (M : Matrix (Basis n) (Basis n) ℂ) : Prop :=
  ∃ a : Operator ℝ, a.ActsAs M ∧ e = a.extended

theorem represents_sigmaMinus : sigmaMinus.Represents lowering := by
  have h := represents_two .zero .one .zero .zero
  simpa [sigmaMinus, lowering] using h

theorem extended_two (a b c d : Amplitude ℝ) :
    (two a b c d).extended = two a.extended b.extended c.extended d.extended := by
  simp [extended, two, Grid.map]

theorem extended_sigmaMinus : sigmaMinus.extended = sigmaMinus := extended_two ..

theorem extended_sigmaZ : sigmaZ.extended = sigmaZ := extended_two ..

/-- A finite operator of one qubit on a register, times a finite number. -/
theorem exists_embed_scaleReal {op : Operator ℝ} {A : LocalMatrix} (hop : op.Represents A) {q : ℕ}
    (hq : q < n) (x : ℝ) : ∃ e, embed op.extended q n = .ok e ∧
      (e.scaleReal (.finite x)).ActsFinitelyAs ((x : ℂ) • atQubit n q A) := by
  refine ⟨tensor [(q, op.extended)] n, embed_eq_ok hop.rows hop.cols hq, ?_⟩
  rw [← extended_tensor, ← extended_scaleReal]
  refine ⟨_, Represents.scaleReal ?_ x, rfl⟩
  have hplaced := forall_factorAt (q := ⟨q, hq⟩) (P := Represents) Represents.identity hop
  have hacts := actsAs_tensor hplaced
  rw [← onQubit_eq_tensorOf, ← atQubit_val] at hacts
  exact hacts

/-- One operator on a qubit of a register times a number, or none without a number. -/
noncomputable def placed (op : Operator Extended) (q n : ℕ) :
    Option Extended → Result Extended (List (Operator Extended))
  | none => .ok []
  | some x => (embed op q n).map fun e => [e.scaleReal x]

/-- One matrix on a qubit of a register times a positive number, or none for zero. -/
noncomputable def weighted (n q : ℕ) (x : ℝ) (A : LocalMatrix) : List (Matrix (Basis n) (Basis n) ℂ) :=
  if 0 < x then [(x : ℂ) • atQubit n q A] else []

theorem exists_placed {op : Operator ℝ} {A : LocalMatrix} (hop : op.Represents A) {q : ℕ} (hq : q < n)
    (x : ℝ) : ∃ ops, placed op.extended q n (if 0 < x then some (.finite x) else none) = .ok ops ∧
      List.Forall₂ ActsFinitelyAs ops (weighted n q x A) := by
  unfold weighted
  split_ifs with hx
  · obtain ⟨e, he, hacts⟩ := exists_embed_scaleReal hop hq x
    exact ⟨[e.scaleReal (.finite x)], Result.map_eq_ok.mpr ⟨e, he, rfl⟩, .cons hacts .nil⟩
  · exact ⟨[], rfl, .nil⟩

end Operator

namespace Decoherence

/-! ## Times that are accepted -/

section Checks

variable {α : Type} [Scalar α] {q : ℕ}

theorem isBadTime_of_checkTimes {n : ℕ} {label : String} {ts : Option (List α)}
    (h : checkTimes n label ts = .ok ()) {t : α} (ht : (ts.bind fun ts => ts[q]?) = some t) :
    isBadTime t = false := by
  cases ts with
  | none => simp at ht
  | some ts =>
    unfold checkTimes at h
    dsimp only at h
    split_ifs at h
    split at h
    · cases h
    · next hnone =>
      simpa using List.find?_eq_none.mp hnone (t, q) (List.mk_mem_zipIdx_iff_getElem?.mpr ht)

theorem lt_of_checkBound {t1 t2 : List α} (h : checkBound t1 t2 = .ok ()) {x y : α}
    (hx : t1[q]? = some x) (hy : t2[q]? = some y) : Scalar.lt (Scalar.two * x) y = false := by
  unfold checkBound at h
  split at h
  · cases h
  · next hnone =>
    have hpair : (t1.zip t2)[q]? = some (x, y) := List.getElem?_zip_eq_some.mpr ⟨hx, hy⟩
    simpa using
      List.find?_eq_none.mp hnone ((x, y), q) (List.mk_mem_zipIdx_iff_getElem?.mpr hpair)

end Checks

/-- The time of a qubit, if it is given and finite. -/
def finiteTime? (ts : Option (List Extended)) (q : ℕ) : Option ℝ :=
  match ts.bind fun ts => ts[q]? with
  | some (.finite x) => some x
  | _ => none

theorem finiteTime?_eq_some {ts : Option (List Extended)} {q : ℕ} {x : ℝ} :
    finiteTime? ts q = some x ↔ (ts.bind fun ts => ts[q]?) = some (.finite x) := by
  unfold finiteTime?
  rcases ts.bind fun ts => ts[q]? with _ | x' | negative | _ <;> simp

/-- Times as the checks leave them, where they are finite: all positive, and no coherence time above twice the
relaxation time. -/
structure Accepted (d : Decoherence Extended) : Prop where
  relaxation : ∀ q x, finiteTime? d.t1 q = some x → 0 < x
  coherence : ∀ q y, finiteTime? d.t2 q = some y → 0 < y
  bound : ∀ q x y, finiteTime? d.t1 q = some x → finiteTime? d.t2 q = some y → y ≤ 2 * x

theorem isBadTime_finite (x : ℝ) : isBadTime (Extended.finite x) = decide (x ≤ 0) := by
  have hle : isBadTime (Extended.finite x) = (decide (x < 0) || decide (x = 0)) := rfl
  simp [hle, le_iff_lt_or_eq]

theorem isBadTime_infinite (negative : Bool) : isBadTime (Extended.infinite negative) = negative := by
  cases negative <;> rfl

theorem pos_of_checkTimes {n : ℕ} {label : String} {ts : Option (List Extended)}
    (h : checkTimes n label ts = .ok ()) {q : ℕ} {x : ℝ} (hx : finiteTime? ts q = some x) : 0 < x := by
  have hgood := isBadTime_of_checkTimes h (finiteTime?_eq_some.mp hx)
  rwa [isBadTime_finite, decide_eq_false_iff_not, not_le] at hgood

theorem accepted_of_ofParams {n : ℕ} {t1 t2 : Option (ParamValue Extended)} {d : Decoherence Extended}
    (h : ofParams n t1 t2 = .ok d) : d.numQubits = n ∧ d.Accepted := by
  obtain ⟨ts1, -, h⟩ := Result.bind_eq_ok.mp h
  obtain ⟨ts2, -, h⟩ := Result.bind_eq_ok.mp h
  obtain ⟨_, hvalid, h⟩ := Result.bind_eq_ok.mp h
  obtain rfl := Except.ok.inj h
  obtain ⟨_, htimes1, hvalid⟩ := Result.bind_eq_ok.mp hvalid
  obtain ⟨_, htimes2, hbound⟩ := Result.bind_eq_ok.mp hvalid
  refine ⟨rfl, fun q x hx => pos_of_checkTimes htimes1 hx, fun q y hy => pos_of_checkTimes htimes2 hy,
    fun q x y hx hy => ?_⟩
  obtain ⟨ts1, rfl, hx'⟩ := Option.bind_eq_some_iff.mp (finiteTime?_eq_some.mp hx)
  obtain ⟨ts2, rfl, hy'⟩ := Option.bind_eq_some_iff.mp (finiteTime?_eq_some.mp hy)
  simpa using lt_of_checkBound hbound hx' hy'

/-! ## Rates and amplitudes -/

/-- The rate of a finite time, and zero without one. -/
noncomputable def rateOf (time : Option ℝ) : ℝ := time.elim 0 fun t => 1 / t

/-- What a coherence time demands beyond the share of relaxation. -/
noncomputable def excess (t1 : Option ℝ) (t2 : ℝ) : ℝ := 1 / t2 - rateOf t1 / Scalar.two

noncomputable def relaxationAmplitude (t1 : Option ℝ) : ℝ := Real.sqrt (rateOf t1)

noncomputable def dephasingAmplitude (t1 t2 : Option ℝ) : ℝ :=
  t2.elim 0 fun t => Real.sqrt (excess t1 t / Scalar.two)

/-- Amplitudes of the two collapse operators of a qubit that reproduce its times. One of them is missing, and
counts as zero, if there is no finite time that demands it. -/
structure Reproduces (t1 t2 : Option ℝ) (a b : ℝ) : Prop where
  nonneg : 0 ≤ a ∧ 0 ≤ b
  relaxes : 0 < a ↔ t1.isSome
  dephases : 0 < b ↔ ∃ y, t2 = some y ∧ ∀ x, t1 = some x → y < 2 * x
  relaxation : ∀ x, t1 = some x → a ^ 2 = 1 / x
  coherence : ∀ y, t2 = some y → a ^ 2 / 2 + 2 * b ^ 2 = 1 / y

section Amplitudes

variable {t1 t2 : Option ℝ}

theorem rateOf_nonneg (hx : ∀ x, t1 = some x → 0 < x) : 0 ≤ rateOf t1 := by
  cases t1 with
  | none => exact le_rfl
  | some x => exact one_div_nonneg.mpr (hx x rfl).le

theorem excess_none (y : ℝ) : excess none y = 1 / y := by
  simp [excess, rateOf]

theorem excess_some (x y : ℝ) : excess (some x) y = 1 / y - 1 / (2 * x) := by
  rw [excess, rateOf, Option.elim_some, Scalar.two_real, div_div, mul_comm]

/-- Relaxation alone demands no more than the coherence time does. -/
theorem excess_nonneg {y : ℝ} (hy : 0 < y) (hbound : ∀ x, t1 = some x → y ≤ 2 * x) :
    0 ≤ excess t1 y := by
  cases t1 with
  | none =>
    rw [excess_none]
    exact one_div_nonneg.mpr hy.le
  | some x =>
    rw [excess_some, sub_nonneg]
    exact one_div_le_one_div_of_le hy (hbound x rfl)

theorem excess_pos_iff {y : ℝ} (hx : ∀ x, t1 = some x → 0 < x) (hy : 0 < y) :
    0 < excess t1 y ↔ ∀ x, t1 = some x → y < 2 * x := by
  cases t1 with
  | none => simpa [excess_none] using hy
  | some x =>
    have hpos : 0 < 2 * x := mul_pos two_pos (hx x rfl)
    rw [excess_some, sub_pos, one_div_lt_one_div hpos hy]
    simp

theorem dephasingAmplitude_nonneg : 0 ≤ dephasingAmplitude t1 t2 := by
  cases t2 with
  | none => exact le_rfl
  | some y => exact Real.sqrt_nonneg _

theorem reproduces (hx : ∀ x, t1 = some x → 0 < x) (hy : ∀ y, t2 = some y → 0 < y)
    (hbound : ∀ x y, t1 = some x → t2 = some y → y ≤ 2 * x) :
    Reproduces t1 t2 (relaxationAmplitude t1) (dephasingAmplitude t1 t2) where
  nonneg := ⟨Real.sqrt_nonneg _, dephasingAmplitude_nonneg⟩
  relaxes := by
    rw [relaxationAmplitude, Real.sqrt_pos]
    cases t1 with
    | none => simp [rateOf]
    | some x => simpa [rateOf] using hx x rfl
  dephases := by
    cases t2 with
    | none => simp [dephasingAmplitude]
    | some y =>
      rw [dephasingAmplitude, Option.elim_some, Real.sqrt_pos, Scalar.two_real,
        div_pos_iff_of_pos_right two_pos, excess_pos_iff hx (hy y rfl)]
      simp
  relaxation x hsome := by
    rw [relaxationAmplitude, Real.sq_sqrt (rateOf_nonneg hx), hsome, rateOf, Option.elim_some]
  coherence y hsome := by
    have hexcess : 0 ≤ excess t1 y / Scalar.two := by
      rw [Scalar.two_real]
      exact div_nonneg (excess_nonneg (hy y hsome) fun x hx => hbound x y hx hsome) zero_le_two
    rw [hsome, dephasingAmplitude, Option.elim_some, Real.sq_sqrt hexcess, relaxationAmplitude,
      Real.sq_sqrt (rateOf_nonneg hx), excess, Scalar.two_real]
    ring

end Amplitudes

/-! ## The operators -/

section Operators

variable {d : Decoherence Extended} {q : ℕ}

theorem rate?_finite {x : ℝ} (hx : 0 < x) : rate? (Extended.finite x) = some (Extended.finite (1 / x)) := by
  rw [rate?, Extended.isPositive_finite, decide_eq_true hx, if_pos rfl, Extended.one_eq,
    Extended.finite_div 1 hx.ne']

theorem bind_rate? {ts : Option (List Extended)} (h : ∀ x, finiteTime? ts q = some x → 0 < x) :
    (ts.bind fun ts => ts[q]?).bind rate? = (finiteTime? ts q).map fun x => .finite (1 / x) := by
  cases htime : ts.bind fun ts => ts[q]? with
  | none => simp [finiteTime?, htime]
  | some t =>
    cases t with
    | finite x =>
      have hsome : finiteTime? ts q = some x := finiteTime?_eq_some.mpr htime
      rw [hsome, Option.bind_some, rate?_finite (h x hsome), Option.map_some]
    | infinite negative => simp [finiteTime?, htime, rate?]
    | undefined => simp [finiteTime?, htime, rate?]

theorem relaxationRate?_eq (h : d.Accepted) (q : ℕ) :
    d.relaxationRate? q = (finiteTime? d.t1 q).map fun x => .finite (1 / x) := by
  rw [← bind_rate? (h.relaxation q), Option.bind_assoc]
  rfl

theorem share_eq (h : d.Accepted) (q : ℕ) : (d.relaxationRate? q).getD Scalar.zero / Scalar.two =
    Extended.finite (rateOf (finiteTime? d.t1 q) / Scalar.two) := by
  rw [relaxationRate?_eq h, Extended.two_eq, Scalar.two_real, ← Extended.finite_div _ two_ne_zero]
  cases finiteTime? d.t1 q <;> rfl

theorem dephasingRate?_eq (h : d.Accepted) (q : ℕ) : d.dephasingRate? q =
    (finiteTime? d.t2 q).bind fun y =>
      if 0 < excess (finiteTime? d.t1 q) y then some (.finite (excess (finiteTime? d.t1 q) y))
      else none := by
  have hsteps : d.dephasingRate? q = ((d.t2.bind fun ts => ts[q]?).bind rate?).bind fun r =>
      let gamma := r - (d.relaxationRate? q).getD Scalar.zero / Scalar.two
      if Scalar.lt Scalar.zero gamma then some gamma else none := by
    rw [Option.bind_assoc, Option.bind_assoc]
    rfl
  rw [hsteps, bind_rate? (h.coherence q), share_eq h, Option.bind_map]
  congr 1
  funext y
  simp [excess]

/-- Amplitudes of the collapse operators of a qubit. -/
noncomputable def amplitudes (d : Decoherence Extended) (q : ℕ) : ℝ × ℝ :=
  (relaxationAmplitude (finiteTime? d.t1 q),
    dephasingAmplitude (finiteTime? d.t1 q) (finiteTime? d.t2 q))

theorem amplitudes_reproduce (h : d.Accepted) (q : ℕ) :
    Reproduces (finiteTime? d.t1 q) (finiteTime? d.t2 q) (d.amplitudes q).1 (d.amplitudes q).2 :=
  reproduces (h.relaxation q) (h.coherence q) (h.bound q)

theorem relaxationRoot_eq (h : d.Accepted) (q : ℕ) : (d.relaxationRate? q).map Scalar.sqrt =
    if 0 < (d.amplitudes q).1 then some (.finite (d.amplitudes q).1) else none := by
  have hrelaxes := (amplitudes_reproduce h q).relaxes
  rw [relaxationRate?_eq h]
  cases htime : finiteTime? d.t1 q with
  | none => simp [hrelaxes, htime]
  | some x =>
    have hroot := Extended.sqrt_finite (one_div_nonneg.mpr (h.relaxation q x htime).le)
    rw [if_pos (by simp [hrelaxes, htime]), Option.map_some, Option.map_some, hroot, amplitudes, htime]
    rfl

theorem dephasingRoot_eq (h : d.Accepted) (q : ℕ) :
    ((d.dephasingRate? q).map fun gamma => Scalar.sqrt (gamma / Scalar.two)) =
      if 0 < (d.amplitudes q).2 then some (.finite (d.amplitudes q).2) else none := by
  rw [dephasingRate?_eq h, amplitudes, dephasingAmplitude]
  cases htime : finiteTime? d.t2 q with
  | none => simp
  | some y =>
    have hpositive : 0 < Real.sqrt (excess (finiteTime? d.t1 q) y / Scalar.two) ↔
        0 < excess (finiteTime? d.t1 q) y := by
      rw [Real.sqrt_pos, Scalar.two_real, div_pos_iff_of_pos_right two_pos]
    simp only [Option.bind_some, Option.elim_some, hpositive]
    split_ifs with hexcess
    · rw [Option.map_some, Extended.two_eq, Extended.finite_div _ two_ne_zero,
        Extended.sqrt_finite (div_nonneg hexcess.le zero_le_two), Scalar.two_real]
    · rfl

/-- The operators of a qubit act as its matrices of relaxation and of dephasing. -/
theorem exists_collapse (h : d.Accepted) (hq : q < d.numQubits) :
    ∃ ops, (do return (← d.relaxation q) ++ (← d.dephasing q)) = (.ok ops : Result Extended _) ∧
      List.Forall₂ Operator.ActsFinitelyAs ops
        (Operator.weighted d.numQubits q (d.amplitudes q).1 lowering ++
          Operator.weighted d.numQubits q (d.amplitudes q).2 pauliZ) := by
  have hrelaxation : d.relaxation q =
      Operator.placed .sigmaMinus q d.numQubits ((d.relaxationRate? q).map Scalar.sqrt) := by
    unfold relaxation
    cases d.relaxationRate? q <;> rfl
  have hdephasing : d.dephasing q = Operator.placed .sigmaZ q d.numQubits
      ((d.dephasingRate? q).map fun gamma => Scalar.sqrt (gamma / Scalar.two)) := by
    unfold dephasing
    cases d.dephasingRate? q <;> rfl
  obtain ⟨first, hfirst, hacts⟩ :=
    Operator.exists_placed Operator.represents_sigmaMinus hq (d.amplitudes q).1
  obtain ⟨second, hsecond, hacts'⟩ :=
    Operator.exists_placed SpinChain.represents_sigmaZ hq (d.amplitudes q).2
  rw [Operator.extended_sigmaMinus, ← relaxationRoot_eq h, ← hrelaxation] at hfirst
  rw [Operator.extended_sigmaZ, ← dephasingRoot_eq h, ← hdephasing] at hsecond
  refine ⟨first ++ second, ?_, List.rel_append hacts hacts'⟩
  rw [hfirst, hsecond]
  rfl

/-- Noise without times has no operators, and no matrices either. -/
theorem weighted_of_isIdeal (h : d.Accepted) (hideal : d.isIdeal = true) (n q : ℕ) :
    Operator.weighted n q (d.amplitudes q).1 lowering ++ Operator.weighted n q (d.amplitudes q).2 pauliZ =
      [] := by
  have hreproduces := amplitudes_reproduce h q
  obtain ⟨ht1, ht2⟩ : d.t1 = none ∧ d.t2 = none := by simpa [isIdeal] using hideal
  have hrelaxes : ¬0 < (d.amplitudes q).1 := by simp [hreproduces.relaxes, ht1, finiteTime?]
  have hdephases : ¬0 < (d.amplitudes q).2 := by simp [hreproduces.dephases, ht2, finiteTime?]
  unfold Operator.weighted
  rw [if_neg hrelaxes, if_neg hdephases, List.append_nil]

theorem exists_collapseOperators_exact (h : d.Accepted) : ∃ ops, d.collapseOperators = .ok ops ∧
    List.Forall₂ Operator.ActsFinitelyAs ops ((List.range d.numQubits).flatMap fun q =>
      Operator.weighted d.numQubits q (d.amplitudes q).1 lowering ++
        Operator.weighted d.numQubits q (d.amplitudes q).2 pauliZ) := by
  unfold collapseOperators
  split_ifs with hideal
  · -- Noise without times leaves out the loop, which would find nothing.
    rw [List.flatMap_eq_nil_iff.mpr fun q _ => weighted_of_isIdeal h hideal _ q]
    exact ⟨[], rfl, .nil⟩
  · obtain ⟨ops, hops, hacts⟩ := Result.exists_mapM fun q hq => exists_collapse h (List.mem_range.mp hq)
    exact ⟨ops.flatten, Result.bind_eq_ok.mpr ⟨ops, hops, rfl⟩, List.rel_flatten hacts⟩

/-- The numbers that roots are taken of are positive. -/
theorem rates_pos (h : d.Accepted) (q : ℕ) :
    (∀ gamma, d.relaxationRate? q = some gamma → ∃ x : ℝ, 0 < x ∧ gamma = .finite x) ∧
      ∀ gamma, d.dephasingRate? q = some gamma →
        ∃ x : ℝ, 0 < x ∧ gamma / Scalar.two = .finite x := by
  constructor
  · intro gamma hgamma
    rw [relaxationRate?_eq h] at hgamma
    obtain ⟨x, hx, rfl⟩ := Option.map_eq_some_iff.mp hgamma
    exact ⟨1 / x, one_div_pos.mpr (h.relaxation q x hx), rfl⟩
  · intro gamma hgamma
    rw [dephasingRate?_eq h] at hgamma
    obtain ⟨y, -, hy⟩ := Option.bind_eq_some_iff.mp hgamma
    split_ifs at hy with hexcess
    obtain rfl := Option.some.inj hy
    exact ⟨_, half_pos hexcess, by rw [Extended.two_eq, Extended.finite_div _ two_ne_zero]⟩

/-- Whatever times noise is made from, its collapse operators are, qubit by qubit, the lowering operator times
`a` where the relaxation time is finite, and the phase operator times `b` where the coherence time is finite and
below twice the relaxation time. The amplitudes reproduce the finite times, and every root is taken of a
positive number. -/
theorem collapseOperators_reproduce {n : ℕ} {t1 t2 : Option (ParamValue Extended)}
    {d : Decoherence Extended} (h : ofParams n t1 t2 = .ok d) :
    ∃ a b : ℕ → ℝ,
      (∀ q < n, Reproduces (finiteTime? d.t1 q) (finiteTime? d.t2 q) (a q) (b q)) ∧
      (∃ ops, d.collapseOperators = .ok ops ∧ List.Forall₂ Operator.ActsFinitelyAs ops
        ((List.range n).flatMap fun q =>
          (if 0 < a q then [(a q : ℂ) • atQubit n q lowering] else []) ++
            if 0 < b q then [(b q : ℂ) • atQubit n q pauliZ] else [])) ∧
      ∀ q < n, (∀ gamma, d.relaxationRate? q = some gamma → ∃ x : ℝ, 0 < x ∧ gamma = .finite x) ∧
        ∀ gamma, d.dephasingRate? q = some gamma →
          ∃ x : ℝ, 0 < x ∧ gamma / Scalar.two = .finite x := by
  obtain ⟨rfl, haccepted⟩ := accepted_of_ofParams h
  exact ⟨fun q => (d.amplitudes q).1, fun q => (d.amplitudes q).2,
    fun q _ => amplitudes_reproduce haccepted q, exists_collapseOperators_exact haccepted,
    fun q _ => rates_pos haccepted q⟩

/-- Three qubits: coherence that relaxation explains, no relaxation, and no noise at all. -/
theorem collapseOperators_reproduce_on_three_qubits :
    let times : List Extended := [.finite 4, .infinite false, .infinite false]
    let times' : List Extended := [.finite 8, .finite 5, .infinite false]
    ∃ d, ofParams 3 (some (.perQubit times)) (some (.perQubit times')) = .ok d ∧
      ∃ a b : ℝ, 0 < a ∧ 0 < b ∧ a ^ 2 = 1 / 4 ∧ 2 * b ^ 2 = 1 / 5 ∧
        ∃ ops, d.collapseOperators = .ok ops ∧ List.Forall₂ Operator.ActsFinitelyAs ops
          [(a : ℂ) • atQubit 3 0 lowering, (b : ℂ) • atQubit 3 1 pauliZ] := by
  intro times times'
  have htimes : checkTimes 3 "t1" (some times) = .ok () := by
    simp [checkTimes, times, isBadTime_finite, isBadTime_infinite]
  have htimes' : checkTimes 3 "t2" (some times') = .ok () := by
    simp [checkTimes, times', isBadTime_finite, isBadTime_infinite]
  have hbound : checkBound times times' = .ok () := by
    norm_num [checkBound, times, times']
  have hvalid : validate ⟨3, some times, some times'⟩ = .ok () :=
    Result.bind_eq_ok.mpr ⟨(), htimes, Result.bind_eq_ok.mpr ⟨(), htimes', hbound⟩⟩
  have hmade : ofParams 3 (some (.perQubit times)) (some (.perQubit times')) =
      .ok ⟨3, some times, some times'⟩ :=
    Result.bind_eq_ok.mpr ⟨some times, rfl, Result.bind_eq_ok.mpr ⟨some times', rfl,
      Result.bind_eq_ok.mpr ⟨(), hvalid, rfl⟩⟩⟩
  obtain ⟨a, b, hreproduces, ⟨ops, hops, hacts⟩, -⟩ := collapseOperators_reproduce hmade
  have hfirst : Reproduces (some 4) (some 8) (a 0) (b 0) := hreproduces 0 (by decide)
  have hsecond : Reproduces none (some 5) (a 1) (b 1) := hreproduces 1 (by decide)
  have hthird : Reproduces none none (a 2) (b 2) := hreproduces 2 (by decide)
  have ha : 0 < a 0 := hfirst.relaxes.mpr rfl
  have hb : 0 < b 1 := hsecond.dephases.mpr ⟨5, rfl, by simp⟩
  have hb' : ¬0 < b 0 := by
    rw [hfirst.dephases]
    norm_num
  have ha' : ¬0 < a 1 := by simp [hsecond.relaxes]
  have hideal : ¬0 < a 2 ∧ ¬0 < b 2 := by simp [hthird.relaxes, hthird.dephases]
  have hzero : a 1 = 0 := le_antisymm (not_lt.mp ha') hsecond.nonneg.1
  refine ⟨_, hmade, a 0, b 1, ha, hb, hfirst.relaxation 4 rfl, ?_, ops, hops, ?_⟩
  · simpa [hzero] using hsecond.coherence 5 rfl
  · simpa [List.range_succ, ha, hb, ha', hb', hideal] using hacts

end Operators

end Decoherence
end QubitPulse
