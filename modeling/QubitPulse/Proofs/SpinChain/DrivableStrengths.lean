import QubitPulse.Proofs.Double.Multiplication
import QubitPulse.Proofs.Parameter
import QubitPulse.Proofs.SpinChain.Reconfiguration

/-!
# Strengths that can be driven

Strengths are checked as they are given, in cycles, and used in angular units. The factor of a full turn
does not make one vanish, but it can carry one out of the range of doubles, and the double that the duration
of a rotation is divided by leaves it one binary place earlier. So strengths that were accepted can be
driven exactly up to a bound.
-/
namespace QubitPulse

/-- All values of a table, row by row. -/
def ParameterTable.entries {α : Type} (t : ParameterTable α) : List α := t.rows.flatMap Prod.snd

namespace ChainStrengths

/-- Pulses can be computed from a strength in angular units: it and its double are finite and above zero. -/
def Drivable (s : Float) : Prop :=
  Scalar.isPositive s = true ∧ Scalar.isPositive (Scalar.two * s) = true

/-- The largest strength in cycles that can be driven, `5734161139222658 * 2 ^ 968`. It is about
`1.43 * 10 ^ 307`. -/
def mostDrivable : Float := Float.ofBits 0x7fb45f306dc9c882

/-- Strengths as they were given, in the order of their names: one for every qubit about x, one for every
coupled pair, and one for every qubit about z. -/
def cycles {α : Type} (s : ChainStrengths α) (numQubits numCouplings : ℕ) : List α :=
  s.sx.broadcast numQubits ++ s.sxsy.broadcast numCouplings ++ s.sz.broadcast numQubits

section Bound
open Float.Model Float.Model.UnpackedFloat QubitPulse.Double

theorem unpack_fullTurn : (ParamValue.fullTurn : Float).toModel.unpack =
    .finite .positive 7074237752028440 (-50) (by decide) := rfl

theorem unpack_mostDrivable : mostDrivable.toModel.unpack =
    .finite .positive 5734161139222658 968 (by decide) := rfl

theorem le_mostDrivable_iff {x : Float} {m : ℕ} {e : ℤ} {hm : 0 < m}
    (hx : x.toModel.unpack = .finite .positive m e hm) :
    Scalar.le x mostDrivable = true ↔ e < 968 ∨ e = 968 ∧ m ≤ 5734161139222658 := by
  rw [le_eq, hx, unpack_mostDrivable]
  simp [UnpackedFloat.compare, Ordering.isLE_then_iff_or, compare_lt_iff_lt, Nat.isLE_compare]

/-- Below the bound a full turn leaves a binary place for doubling, from it on it does not. -/
theorem scaled_lt_iff {m : ℕ} {e : ℤ} (h : Canonical m e) (he : e ≤ 971) :
    m * 7074237752028440 < overflowAt 970 (e + -50) ↔ e < 968 ∨ e = 968 ∧ m ≤ 5734161139222658 := by
  have hbits := h.lt
  unfold overflowAt
  rcases lt_trichotomy e 968 with hbelow | rfl | habove
  · have hpow : 2 ^ 52 ≤ 2 ^ (970 - 1 - (e + -50)).toNat := Nat.pow_le_pow_right (by norm_num) (by omega)
    exact iff_of_true (by omega) (.inl hbelow)
  · have hpow : (970 - 1 - (968 + -50) : ℤ).toNat = 51 := rfl
    rw [hpow]
    omega
  · have hpow : 2 ^ (970 - 1 - (e + -50)).toNat ≤ 2 ^ 50 := Nat.pow_le_pow_right (by norm_num) (by omega)
    have hfull := h.full (by omega)
    exact iff_of_false (by omega) (by omega)

/-- A strength that is accepted stays above zero in angular units, and can be driven exactly up to the
bound. -/
theorem drivable_scaled_iff {x : Float} (hx : Scalar.isPositive x = true) :
    Scalar.lt Scalar.zero (x * ParamValue.fullTurn) = true ∧
      (Drivable (x * ParamValue.fullTurn) ↔ Scalar.le x mostDrivable = true) := by
  obtain ⟨m, e, hm, hx⟩ := exists_of_isPositive hx
  have hle := exponent_le hx
  have hcanonical := stored_unpack x hx
  obtain ⟨m', e', h', hc', heq, hexponent⟩ :=
    unpack_mul_positive hx unpack_fullTurn (by norm_num) (by norm_num)
  obtain ⟨hlt, hfin, hunpack⟩ := stored_magnitude hc' heq
  refine ⟨hlt, ?_⟩
  rw [le_mostDrivable_iff hx, ← scaled_lt_iff hcanonical hle, ← hexponent 970 (by decide) (by omega)]
  unfold Drivable Scalar.isPositive
  rw [hlt, Bool.and_true, hfin]
  constructor
  · rintro ⟨hnumber, hdouble⟩
    rw [Bool.and_eq_true, (two_mul_positive (hunpack hnumber)).2] at hdouble
    exact hdouble.1
  · intro hsmall
    obtain ⟨hdouble, hnumber⟩ := two_mul_positive (hunpack (by omega))
    rw [hdouble, Bool.and_true, hnumber]
    exact ⟨by omega, hsmall⟩

end Bound

/-- What the table holds of accepted strengths are these in angular units. -/
theorem entries_normalize {α : Type} [Scalar α] {s : ChainStrengths α} {n m : ℕ} {t : ParameterTable α}
    (h : s.normalize n m = .ok t) : t.entries = (s.cycles n m).map (· * ParamValue.fullTurn) := by
  obtain ⟨xs, zs, es, ⟨hx, -⟩, ⟨hz, -⟩, ⟨he, -⟩, rfl⟩ := normalize_eq_ok.mp h
  -- the rows stand in the order of their names, whatever order they were put in
  have hrows : ∀ us vs ws : List α,
      (((ParameterTable.empty.insert "sx" us).insert "sz" ws).insert "sxsy" vs).rows =
        [("sx", us), ("sxsy", vs), ("sz", ws)] := fun _ _ _ => rfl
  rw [cycles, ← ParamValue.broadcast_of_expand hx, ← ParamValue.broadcast_of_expand hz,
    ← ParamValue.broadcast_of_expand he, ParameterTable.entries, hrows]
  simp

theorem isPositive_cycles {α : Type} [Scalar α] {s : ChainStrengths α} {n m : ℕ} {t : ParameterTable α}
    (h : s.normalize n m = .ok t) : ∀ x ∈ s.cycles n m, Scalar.isPositive x = true := by
  obtain ⟨xs, zs, es, ⟨hx, -, hxs⟩, ⟨hz, -, hzs⟩, ⟨he, -, hes⟩, rfl⟩ := normalize_eq_ok.mp h
  rw [cycles, ← ParamValue.broadcast_of_expand hx, ← ParamValue.broadcast_of_expand hz,
    ← ParamValue.broadcast_of_expand he]
  simp only [List.mem_append]
  rintro x ((hmem | hmem) | hmem)
  · exact hxs x hmem
  · exact hes x hmem
  · exact hzs x hmem

end ChainStrengths

namespace SpinChain
open ChainStrengths (Drivable mostDrivable)

/-- However a chain was given other strengths, its table holds the strengths in force in angular units, all of
them above zero. They and their doubles are finite exactly if no strength in force is beyond the bound. -/
theorem strengths_drivable_iff {n : ℕ} {layout : ChainLayout} {given : ChainStrengths Float}
    {c : SpinChain Float} (h : build n layout given = .ok c) (calls : List (ChainStrengths Float)) :
    let inForce := (c.lastAccepted given calls).cycles n (layout.couplings n).length
    let entries := (c.reconfigured calls).strengths.entries
    entries = inForce.map (· * ParamValue.fullTurn) ∧
      (∀ s ∈ entries, Scalar.lt Scalar.zero s = true) ∧
      ((∀ s ∈ entries, Drivable s) ↔ ∀ x ∈ inForce, Scalar.le x mostDrivable = true) := by
  intro inForce entries
  have hchain := consistent_of_build (build_lastAccepted h calls)
  have hnormal := hchain.normalized
  rw [hchain.given_eq, hchain.size_eq, hchain.couplings_eq] at hnormal
  have hentries : entries = inForce.map (· * ParamValue.fullTurn) :=
    ChainStrengths.entries_normalize hnormal
  have hpositive : ∀ x ∈ inForce, Scalar.isPositive x = true := ChainStrengths.isPositive_cycles hnormal
  have hscaled := fun x hx => ChainStrengths.drivable_scaled_iff (hpositive x hx)
  refine ⟨hentries, ?_, ?_⟩ <;> rw [hentries, List.forall_mem_map]
  · exact fun x hx => (hscaled x hx).1
  · exact forall₂_congr fun x hx => (hscaled x hx).2

/-- A chain of two is given a strength at the bound, and then one that is refused. -/
theorem strengths_drivable_at_bound :
    let strong : ChainStrengths Float := { ChainStrengths.default with sx := .perQubit [mostDrivable, 0.5] }
    let calls : List (ChainStrengths Float) := [strong, { strong with sz := .scalar 0.0 }]
    ∃ c : SpinChain Float, build 2 .linear .default = .ok c ∧ c.lastAccepted .default calls = strong ∧
      ∀ s ∈ (c.reconfigured calls).strengths.entries, Drivable s := by
  intro strong calls
  obtain ⟨c, hbuild, haccepted⟩ : ∃ c : SpinChain Float, build 2 .linear .default = .ok c ∧
      c.lastAccepted .default calls = strong := ⟨_, rfl, rfl⟩
  have hbelow : ∀ x ∈ strong.cycles 2 1, Scalar.le x mostDrivable = true := by decide
  rw [← haccepted] at hbelow
  exact ⟨c, hbuild, haccepted, (strengths_drivable_iff hbuild calls).2.2.mpr hbelow⟩

/-- Of two strengths that are accepted, the larger is infinite in angular units. The smaller is finite, but
its double is not, and a rotation is given no time. -/
theorem accepted_strengths_overflow :
    let driven : Float → ChainStrengths Float := fun x => { ChainStrengths.default with sx := .scalar x }
    (do
      let c ← build 1 .linear (driven 1e308)
      let d ← build 1 .linear (driven 2e307)
      let s ← c.strengths.valueAt "sx" 0
      let s' ← d.strengths.valueAt "sx" 0
      let t ← d.decomposer.decompose [.rx 0 3.0]
      return (Scalar.isFinite s, Scalar.isFinite s', Scalar.isFinite (Scalar.two * s'), t.durations)) =
    (.ok (false, true, false, [0.0]) : Result Float (Bool × Bool × Bool × List Float)) := by
  decide +kernel

end SpinChain
end QubitPulse
