import Mathlib.Tactic.Positivity
import QubitPulse.Decimal.Text
import QubitPulse.Proofs.Decimal.Numeral
import QubitPulse.Proofs.Double.Canonical
import QubitPulse.Scalar.Double

/-!
# Doubles in documents

A finite double is set as a numeral of the grammar, and only a finite one is. The search for the
shortest decimal ends before its steps run out where this matters: a grid finer than the last binary
place has a point that rounds to the double.
-/
namespace QubitPulse

/-! ## Layouts -/

namespace Decimal

theorem setPositional_wellFormed {negative pointZero : Bool} {ds : List Digit} {exponent : ℤ}
    (hne : ds ≠ []) (hlead : ds.head? = some Digit.zero → ds.length = 1)
    (hzero : ds.head? = some Digit.zero → exponent ≤ 0) :
    (setPositional negative pointZero ds exponent).WellFormed := by
  obtain ⟨d, ds, rfl⟩ := List.exists_cons_of_ne_nil hne
  unfold setPositional
  generalize (if pointZero then [Digit.zero] else []) = point
  dsimp only
  split_ifs with hnonneg hplaces
  · refine ⟨by simp, fun h => ?_, fun e he => by cases he⟩
    have hexp : exponent = 0 := le_antisymm (hzero h) hnonneg
    have hlength := hlead h
    subst hexp
    simpa [Digit.zeros] using hlength
  · obtain ⟨k, hk⟩ : ∃ k, (d :: ds).length - (-exponent).toNat = k + 1 :=
      ⟨(d :: ds).length - (-exponent).toNat - 1, by omega⟩
    rw [hk]
    refine ⟨by simp, fun h => ?_, fun e he => by cases he⟩
    have hlength := hlead h
    omega
  · exact ⟨by simp, fun _ => rfl, fun e he => by cases he⟩

theorem setScientific_wellFormed {negative : Bool} {ds : List Digit} {leading : ℤ}
    (hne : ds ≠ []) : (setScientific negative ds leading).WellFormed := by
  obtain ⟨d, ds, rfl⟩ := List.exists_cons_of_ne_nil hne
  refine ⟨by simp [setScientific], fun _ => by simp [setScientific], ?_⟩
  intro e he
  obtain rfl : _ = e := Option.some.inj he
  exact Digit.ofNat_ne_nil _

/-! ## The search for the shortest decimal -/

theorem le_roundDiv (t : Tie) (num den : ℕ) : num / den ≤ roundDiv t num den := by
  unfold roundDiv
  dsimp only
  split_ifs
  · exact Nat.le_succ _
  · exact Nat.le_succ _
  · exact le_rfl

theorem interval_bounds {b : Binary} (hb : 0 < b.significand) :
    0 < (interval b).1 ∧ (interval b).1 + 3 ≤ (interval b).2.2 := by
  unfold interval
  dsimp only
  split_ifs <;> omega

/-- A point that a grid offers is not zero. -/
theorem onGrid?_pos {t : Tie} {b : Binary} (hb : 0 < b.significand) {k : ℤ} {c : ℕ}
    (h : onGrid? t b k = some c) : 0 < c := by
  obtain ⟨hlow, -⟩ := interval_bounds hb
  unfold onGrid? at h
  dsimp only at h
  set p := Nat.pow 2 (b.exponent - 2).toNat * Nat.pow 10 (-k).toNat
  set q := Nat.pow 2 (-(b.exponent - 2)).toNat * Nat.pow 10 k.toNat
  have hp : 0 < p := Nat.mul_pos (Nat.pow_pos (by omega)) (Nat.pow_pos (by omega))
  have hlowp : 0 < (interval b).1 * p := Nat.mul_pos hlow hp
  have hfirst := le_roundDiv t ((interval b).2.1 * p) q
  generalize (interval b).2.1 * p / q = d at h hfirst
  -- the lower neighbour is taken only where it lies in the interval, which zero does not
  have hd (hlower : (decide ((interval b).1 * p < d * q) ||
      decide (b.significand % 2 = 0) && decide ((interval b).1 * p = d * q)) = true) : 0 < d := by
    rcases Nat.eq_zero_or_pos d with rfl | hd
    · simp only [Nat.zero_mul, Nat.not_lt_zero, decide_false, Bool.false_or, Bool.and_eq_true,
        decide_eq_true_eq] at hlower
      omega
    · exact hd
  split_ifs at h with hboth hlower hupper
  · obtain rfl := Option.some.inj h
    exact (hd (Bool.and_eq_true_iff.mp hboth).1).trans_le hfirst
  · obtain rfl := Option.some.inj h
    exact hd hlower
  · obtain rfl := Option.some.inj h
    exact Nat.succ_pos _

/-- A grid that offers no point is coarser than three quarters of the last binary place. -/
theorem coarse_of_onGrid?_eq_none {t : Tie} {b : Binary} (hb : 0 < b.significand) {k : ℤ}
    (h : onGrid? t b k = none) :
    3 * (2 ^ (b.exponent - 2).toNat * 10 ^ (-k).toNat) ≤
      2 ^ (-(b.exponent - 2)).toNat * 10 ^ k.toNat := by
  obtain ⟨-, hwidth⟩ := interval_bounds hb
  unfold onGrid? at h
  dsimp only at h
  change 3 * (Nat.pow 2 (b.exponent - 2).toNat * Nat.pow 10 (-k).toNat) ≤
    Nat.pow 2 (-(b.exponent - 2)).toNat * Nat.pow 10 k.toNat
  generalize Nat.pow 2 (b.exponent - 2).toNat * Nat.pow 10 (-k).toNat = p at h ⊢
  generalize Nat.pow 2 (-(b.exponent - 2)).toNat * Nat.pow 10 k.toNat = q at h ⊢
  generalize (interval b).2.1 * p / q = d at h
  split_ifs at h with hboth hlower hupper
  -- neither neighbour lies in the interval, so it is no wider than the grid
  have hle : d * q ≤ (interval b).1 * p := by
    simp only [Bool.or_eq_true, decide_eq_true_eq, not_or] at hlower
    exact Nat.not_lt.mp hlower.1
  have hge : (interval b).2.2 * p ≤ (d + 1) * q := by
    simp only [Bool.or_eq_true, decide_eq_true_eq, not_or] at hupper
    exact Nat.not_lt.mp hupper.1
  have hmul : ((interval b).1 + 3) * p ≤ (interval b).2.2 * p := Nat.mul_le_mul_right p hwidth
  rw [Nat.add_mul] at hmul
  rw [Nat.add_mul, Nat.one_mul] at hge
  omega

/-- A search that ends without digits has tried all its grids. -/
theorem search_eq_zero {t : Tie} {b : Binary} (hb : 0 < b.significand) (fuel : ℕ) (k : ℤ)
    (h : (search t b fuel k).digits = 0) :
    (search t b fuel k).exponent = k - fuel ∧ onGrid? t b (k - fuel) = none := by
  induction fuel generalizing k with
  | zero =>
    simp only [search] at h ⊢
    cases hgrid : onGrid? t b k with
    | none => simp [hgrid]
    | some c =>
      rw [hgrid] at h
      exact absurd h (onGrid?_pos hb hgrid).ne'
  | succ fuel ih =>
    rw [search] at h ⊢
    cases hgrid : onGrid? t b k with
    | none =>
      simp only [hgrid] at h ⊢
      have hrest := ih (k - 1) h
      rw [show k - ((fuel + 1 : ℕ) : ℤ) = k - 1 - fuel by omega]
      exact hrest
    | some c =>
      rw [hgrid] at h
      exact absurd h (onGrid?_pos hb hgrid).ne'

/-- The shortest decimal of a double has digits, unless its exponent is zero or less. -/
theorem shortest_exponent_nonpos {t : Tie} {b : Binary} (hb : 0 < b.significand)
    (hlt : b.significand < 2 ^ 53) (h : (shortest t b).digits = 0)
    (hsmall : (shortest t b).exponent < 16) : (shortest t b).exponent ≤ 0 := by
  obtain ⟨hexp, hnone⟩ := search_eq_zero hb 24 (coarsest b) h
  have hcoarse := coarse_of_onGrid?_eq_none hb hnone
  change (shortest t b).exponent = _ at hexp
  by_contra hpos
  have hlog : b.significand.log2 < 53 := (Nat.log2_lt hb.ne').mpr hlt
  rw [← hexp] at hcoarse
  generalize (shortest t b).exponent = k at *
  simp only [coarsest] at hexp
  have he : 4 * k.toNat ≤ (b.exponent - 2).toNat := by omega
  have h₁ : (-k).toNat = 0 := by omega
  have h₂ : (-(b.exponent - 2)).toNat = 0 := by omega
  rw [h₁, h₂, pow_zero, pow_zero, mul_one, one_mul] at hcoarse
  have hpow : 10 ^ k.toNat ≤ 2 ^ (b.exponent - 2).toNat := by
    calc 10 ^ k.toNat ≤ 16 ^ k.toNat := Nat.pow_le_pow_left (by omega) _
      _ = 2 ^ (4 * k.toNat) := by rw [pow_mul]; rfl
      _ ≤ 2 ^ (b.exponent - 2).toNat := Nat.pow_le_pow_right (by omega) he
  have := Nat.two_pow_pos (b.exponent - 2).toNat
  omega

/-- Documents hold numerals of the grammar. -/
theorem documentLayout_wellFormed {b : Binary} (hlt : b.significand < 2 ^ 53) :
    (documentLayout.numeral b).WellFormed := by
  unfold Layout.numeral
  split_ifs with hzero
  · exact setPositional_wellFormed (by simp) (fun _ => rfl) fun _ => le_rfl
  · have hb : 0 < b.significand := Nat.pos_of_ne_zero hzero
    have hne := Digit.ofNat_ne_nil (shortest documentLayout.tie b).digits
    have hhead (h : (Digit.ofNat (shortest documentLayout.tie b).digits).head? =
        some Digit.zero) : (shortest documentLayout.tie b).digits = 0 := by
      by_contra hd
      exact Digit.head?_ofNat (Nat.pos_of_ne_zero hd) h
    change (if _ then _ else _ : Numeral).WellFormed
    by_cases hrange : (-5 ≤ (shortest documentLayout.tie b).exponent +
          ((Digit.ofNat (shortest documentLayout.tie b).digits).length - 1 : ℕ) &&
        (shortest documentLayout.tie b).exponent +
          ((Digit.ofNat (shortest documentLayout.tie b).digits).length - 1 : ℕ) < 16) = true
    · rw [if_pos hrange]
      refine setPositional_wellFormed hne (fun h => ?_) fun h => ?_
      · rw [hhead h]
        exact Digit.length_ofNat_zero
      · have hd := hhead h
        rw [hd, Digit.length_ofNat_zero] at hrange
        simp only [Bool.and_eq_true, decide_eq_true_eq] at hrange
        exact shortest_exponent_nonpos hb hlt hd (by omega)
    · rw [if_neg hrange]
      exact setScientific_wellFormed hne

/-! ## The bits of a double -/

end Decimal

namespace Binary

theorem significand_lt {bits : UInt64} {b : Binary} (h : ofBits bits = some b) :
    b.significand < 2 ^ 53 := by
  unfold ofBits at h
  dsimp only at h
  have hfraction : bits.toNat % hiddenBit < 2 ^ 52 := Nat.mod_lt _ (by decide)
  split_ifs at h
  · obtain rfl := Option.some.inj h
    exact hfraction.trans (by decide)
  · obtain rfl := Option.some.inj h
    have hbit : hiddenBit = 2 ^ 52 := rfl
    dsimp only
    omega

end Binary

namespace Double
open Float.Model Float.Model.UnpackedFloat

theorem toNat_unpackExponent (b : BitVec 64) :
    (@unpackExponent Format.binary64 b).toNat = b.toNat / 2 ^ 52 % 2 ^ 11 := by
  simp [unpackExponent, BitVec.extractLsb, Nat.shiftRight_eq_div_pow]

theorem isFinite_ofFields (s : Sign) (exponent : BitVec 11) (mantissa : BitVec 52) :
    (ofFields s exponent mantissa).isFinite = false ↔ exponent.toNat = 2047 := by
  have htop : exponent = -1#11 ↔ exponent.toNat = 2047 := by
    rw [← BitVec.toNat_inj]
    rfl
  rw [← htop]
  unfold ofFields
  split_ifs <;> simp_all [UnpackedFloat.isFinite]

/-- The bits have a finite value exactly if the double is finite. -/
theorem ofBits_eq_none {x : Float} :
    Binary.ofBits x.toBits = none ↔ Scalar.isFinite x = false := by
  change _ ↔ (UnpackedFloat.unpack Format.binary64 x.toBits.toBitVec).isFinite = false
  rw [unpack_eq_ofFields, isFinite_ofFields, toNat_unpackExponent]
  change _ ↔ x.toBits.toNat / Binary.hiddenBit % Nat.pow 2 11 = 2047
  unfold Binary.ofBits
  dsimp only
  split_ifs with htop <;> simp [htop]

theorem numeral?_eq_none {x : Float} :
    ScalarText.numeral? x = none ↔ Scalar.isFinite x = false := by
  rw [← ofBits_eq_none]
  exact Option.map_eq_none_iff

/-- The numeral of a double is one of the grammar. -/
theorem numeral?_wellFormed {x : Float} {n : Numeral} (h : ScalarText.numeral? x = some n) :
    n.WellFormed := by
  obtain ⟨b, hb, rfl⟩ := Option.map_eq_some_iff.mp h
  exact Decimal.documentLayout_wellFormed (Binary.significand_lt hb)

end Double
end QubitPulse
