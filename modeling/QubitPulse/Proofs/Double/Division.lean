import QubitPulse.Proofs.Double.Magnitude
import QubitPulse.Proofs.Double.Multiplication

/-!
# Quotients of doubles

A quotient is computed to at least one place more than are kept, or down to the least place there is, and then
rounded. A power of two in the range is a double, so that rounding does not lead across it: a quotient that
reaches one still does when it is rounded, and one that does not is at most that power.
-/
namespace QubitPulse.Double
open Float.Model Float.Model.UnpackedFloat

/-- What a quotient is rounded from: its whole part in units of `2 ^ E`, where the unit is the least there is
or leaves enough places. -/
theorem divCore_eq {m m' : ℕ} (e e' : ℤ) (hm : 0 < m) (hm' : 0 < m') :
    ∃ (E : ℤ) (accuracy : Accuracy),
      divCore Format.binary64 m e m' e' = (m * 2 ^ (e - e' - E).toNat / m', E, accuracy) ∧
      E ≤ e - e' ∧ (-1074 < E → 2 ^ 52 ≤ m * 2 ^ (e - e' - E).toNat / m') := by
  simp only [divCore, totalExponent, targetExponent_eq, Nat.shiftLeft_eq]
  refine ⟨_, _, rfl, min_le_left _ _, fun hE => ?_⟩
  set E : ℤ := min (e - e') (max ((m.log2 : ℤ) + 1 + e - (m'.log2 + 1 + e') - 53) (-1074)) with hdef
  have hlow := ((Nat.log2_eq_iff hm.ne').mp rfl).1
  have hhigh := ((Nat.log2_eq_iff hm'.ne').mp rfl).2
  rw [Nat.le_div_iff_mul_le hm']
  calc 2 ^ 52 * m' ≤ 2 ^ 52 * 2 ^ (m'.log2 + 1) := Nat.mul_le_mul_left _ hhigh.le
    _ = 2 ^ (52 + (m'.log2 + 1)) := (pow_add _ _ _).symm
    _ ≤ 2 ^ (m.log2 + (e - e' - E).toNat) := Nat.pow_le_pow_right (by norm_num) (by omega)
    _ = 2 ^ m.log2 * 2 ^ (e - e' - E).toNat := pow_add _ _ _
    _ ≤ m * 2 ^ (e - e' - E).toNat := Nat.mul_le_mul_right _ hlow

/-- An inequality between multiples of powers of two, after both exponents are shifted alike. -/
theorem scale_le_iff {a b c d m n : ℕ} (h : a + d = c + b) :
    2 ^ a * m ≤ n * 2 ^ b ↔ 2 ^ c * m ≤ n * 2 ^ d :=
  calc 2 ^ a * m ≤ n * 2 ^ b ↔ 2 ^ a * m * 2 ^ d ≤ n * 2 ^ b * 2 ^ d :=
        (Nat.mul_le_mul_right_iff (by positivity)).symm
    _ ↔ 2 ^ c * m * 2 ^ b ≤ n * 2 ^ d * 2 ^ b := by
      rw [show 2 ^ a * m * 2 ^ d = 2 ^ (a + d) * m by rw [pow_add]; ring, h, pow_add,
        show 2 ^ c * 2 ^ b * m = 2 ^ c * m * 2 ^ b by ring,
        show n * 2 ^ b * 2 ^ d = n * 2 ^ d * 2 ^ b by ring]
    _ ↔ 2 ^ c * m ≤ n * 2 ^ d := Nat.mul_le_mul_right_iff (by positivity)

/-- What is left of a quotient after its last places are cut off reaches a power of two just if the exact
quotient does. -/
theorem two_pow_le_quotient_iff {m m' j k : ℕ} {e e' E : ℤ} (hm' : 0 < m') (he : -1074 ≤ e)
    (he' : -1074 ≤ e') (hE : E ≤ e - e') (hk : E + k ≤ j) :
    2 ^ (j - (E + k)).toNat ≤ m * 2 ^ (e - e' - E).toNat / m' / 2 ^ k ↔
      2 ^ j * units m' e' ≤ units m e := by
  rw [Nat.le_div_iff_mul_le (by positivity), Nat.le_div_iff_mul_le hm', ← pow_add, units, units,
    ← mul_assoc, mul_right_comm, ← pow_add]
  exact scale_le_iff (by omega)

/-- With enough places, or none below the least, the last place that is kept can be reached by cutting. -/
theorem exists_lastPlace {M : ℕ} {E : ℤ} (hplaces : -1074 < E → 2 ^ 52 ≤ M) :
    ∃ k : ℕ, lastPlace M E = E + k ∧ M / 2 ^ k < 2 ^ 53 ∧ (-1074 < E + k → 2 ^ 52 ≤ M / 2 ^ k) := by
  have hfine : E ≤ lastPlace M E := by
    unfold lastPlace
    rcases le_or_gt E (-1074) with hE | hE
    · exact le_max_of_le_right hE
    · have hlog : 52 ≤ M.log2 := (Nat.le_log2 (by have := hplaces hE; omega)).mpr (hplaces hE)
      exact le_max_of_le_left (by omega)
  obtain ⟨k, hk⟩ : ∃ k : ℕ, lastPlace M E = E + k := ⟨(lastPlace M E - E).toNat, by omega⟩
  refine ⟨k, hk, ?_⟩
  rcases M.eq_zero_or_pos with rfl | hM
  · -- A quotient without places is below the least place, and that is where it is cut.
    have hE : E ≤ -1074 := by
      by_contra hgt
      exact absurd (hplaces (by omega)) (by norm_num)
    have hzero : lastPlace 0 E = -1074 := max_eq_right (by simp only [Nat.log2_zero]; omega)
    exact ⟨by simp, fun hgt => absurd (hk ▸ hzero) hgt.ne'⟩
  · exact cut_bounds hM hk

/-- What a magnitude with enough places is rounded to. -/
theorem exists_rounded {s : Sign} {M : ℕ} {E : ℤ} {accuracy : Accuracy} {q : UnpackedFloat}
    (hplaces : -1074 < E → 2 ^ 52 ≤ M) (hq : roundWithAccuracy Format.binary64 s M E accuracy = q) :
    ∃ k r : ℕ, lastPlace M E = E + k ∧ (-1074 < E + k → 2 ^ 52 ≤ M / 2 ^ k) ∧ M / 2 ^ k ≤ r ∧
      r ≤ M / 2 ^ k + 1 ∧ Stored q ∧ magnitude q = units r (E + k) ∧ (s = .positive → Nonnegative q) := by
  obtain ⟨k, hk, hbounds⟩ := exists_lastPlace hplaces
  obtain ⟨r, hr⟩ : ∃ r, (ExtendedMantissa.ofMantissaAndAccuracy M accuracy >>> k).roundedMantissa = r :=
    ⟨_, rfl⟩
  obtain ⟨hlow, hhigh⟩ := roundedMantissa_bounds (ExtendedMantissa.ofMantissaAndAccuracy M accuracy >>> k)
  rw [mantissa_residual, hr] at hlow hhigh
  refine ⟨k, r, hk, hbounds.2, hlow, hhigh, ?_⟩
  obtain ⟨hzero, hpos⟩ := roundWithAccuracy_residual s hk hbounds hr
  rcases r.eq_zero_or_pos with h0 | h0
  · rw [hzero h0] at hq
    subst hq
    exact ⟨Stored.zero _, by simp [magnitude, units, h0], fun _ => trivial⟩
  · obtain ⟨n, f, hn, heq, hc, hunits⟩ := hpos h0
    rw [heq] at hq
    subst hq
    exact ⟨Stored.finite hc, congrArg _ hunits, by rintro rfl; trivial⟩

/-- Rounding in the last place does not lead across a power of two. -/
theorem rounded_quotient_bounds {m m' j k r : ℕ} {e e' E : ℤ} (hm' : 0 < m') (he : -1074 ≤ e)
    (he' : -1074 ≤ e') (hE : E ≤ e - e') (hleast : -1074 ≤ E + k)
    (hfull : -1074 < E + k → 2 ^ 52 ≤ m * 2 ^ (e - e' - E).toNat / m' / 2 ^ k)
    (hlow : m * 2 ^ (e - e' - E).toNat / m' / 2 ^ k ≤ r)
    (hhigh : r ≤ m * 2 ^ (e - e' - E).toNat / m' / 2 ^ k + 1) :
    (2 ^ j * units m' e' ≤ units m e → 2 ^ (j + 1074) ≤ units r (E + k)) ∧
      (units m e < 2 ^ j * units m' e' → units r (E + k) ≤ 2 ^ (j + 1074)) := by
  rcases le_or_gt (E + k) (j : ℤ) with hsmall | hlarge
  · have hpower : 2 ^ (j + 1074) = units (2 ^ (j - (E + k)).toNat) (E + k) := by
      rw [units, ← pow_add]
      congr 1
      omega
    rw [hpower]
    refine ⟨fun hreach => ?_, fun hbelow => ?_⟩
    · have hcut := (two_pow_le_quotient_iff hm' he he' hE hsmall).mpr hreach
      exact Nat.mul_le_mul_right _ (hcut.trans hlow)
    · have hcut := mt (two_pow_le_quotient_iff hm' he he' hE hsmall).mp hbelow.not_ge
      exact Nat.mul_le_mul_right _ (by omega)
  · -- A place beyond the power is kept only of quotients that reach it.
    have hplaces := hfull (by omega)
    obtain ⟨i, hi⟩ : ∃ i : ℕ, E + k = i := ⟨(E + k).toNat, by omega⟩
    have hreach : 2 ^ j * units m' e' ≤ units m e :=
      calc 2 ^ j * units m' e' ≤ 2 ^ i * units m' e' :=
            Nat.mul_le_mul_right _ (Nat.pow_le_pow_right (by norm_num) (by omega))
        _ ≤ units m e := by
          refine (two_pow_le_quotient_iff hm' he he' hE hi.le).mp (le_trans ?_ hplaces)
          rw [hi, sub_self]
          norm_num
    refine ⟨fun _ => ?_, fun hbelow => absurd hreach hbelow.not_ge⟩
    calc 2 ^ (j + 1074) ≤ 2 ^ (E + k + 1074).toNat := Nat.pow_le_pow_right (by norm_num) (by omega)
      _ ≤ units r (E + k) := Nat.le_mul_of_pos_left _ (by omega)

/-- A quotient of positive finite magnitudes, compared with a power of two before and after rounding. -/
theorem div_finite {m m' : ℕ} {e e' : ℤ} (hm : 0 < m) (hm' : 0 < m') (h : Canonical m e)
    (h' : Canonical m' e') (j : ℕ) {q : UnpackedFloat}
    (hq : UnpackedFloat.div Format.binary64 (.finite .positive m e hm) (.finite .positive m' e' hm') = q) :
    Nonnegative q ∧ Stored q ∧
      (2 ^ j * units m' e' ≤ units m e → (2 ^ (j + 1074) : ℕ) ≤ magnitude q) ∧
      (units m e < 2 ^ j * units m' e' → magnitude q ≤ (2 ^ (j + 1074) : ℕ)) := by
  obtain ⟨E, accuracy, hcore, hE, hplaces⟩ := divCore_eq e e' hm hm'
  simp only [UnpackedFloat.div, hcore] at hq
  obtain ⟨k, r, hk, hfull, hlow, hhigh, hstored, hmagnitude, hnonneg⟩ := exists_rounded hplaces hq
  have hleast : -1074 ≤ E + (k : ℤ) := hk ▸ le_max_right _ _
  rw [hmagnitude, Nat.cast_le, Nat.cast_le]
  exact ⟨hnonneg rfl, hstored,
    rounded_quotient_bounds hm' h.least h'.least hE hleast hfull hlow hhigh⟩

theorem unpack_div (x y : Float) : (x / y).toModel.unpack =
    stored (UnpackedFloat.div Format.binary64 x.toModel.unpack y.toModel.unpack) :=
  rfl

/-- What is in the range is stored as it is. -/
theorem stored_of_lt {u : UnpackedFloat} (hs : Stored u) (h : magnitude u < (units (2 ^ 53) 971 : ℕ)) :
    stored u = u := by
  cases u with
  | zero s => rw [stored, unpack_pack_zero]
  | finite s m e hm =>
    have hc := hs rfl
    rw [magnitude, Nat.cast_lt] at h
    rw [stored, unpack_pack hm hc, if_neg ((hc.exponent_le_iff (by norm_num)).mpr h).not_gt]
  | infinity s => exact absurd h not_top_lt
  | notANumber => exact absurd h not_top_lt

/-- What is at most a number in the range stays so when it is stored. -/
theorem magnitude_stored_le {u : UnpackedFloat} (hs : Stored u) {n : ℕ} (hn : n < units (2 ^ 53) 971)
    (h : magnitude u ≤ n) : magnitude (stored u) ≤ n := by
  rwa [stored_of_lt hs (h.trans_lt (Nat.cast_lt.mpr hn))]

/-- Dividing by a positive number does not lead across a power of two in the range. -/
theorem div_spec {x s : Float} {m : ℕ} {e : ℤ} {hm : 0 < m} (hx : Nonnegative x.toModel.unpack)
    (hs : s.toModel.unpack = .finite .positive m e hm) {j : ℕ} (hj : j < 1024) :
    Nonnegative (x / s).toModel.unpack ∧
      ((2 ^ j * units m e : ℕ) ≤ magnitude x.toModel.unpack →
        (2 ^ (j + 1074) : ℕ) ≤ magnitude (x / s).toModel.unpack) ∧
      (magnitude x.toModel.unpack < (2 ^ j * units m e : ℕ) →
        magnitude (x / s).toModel.unpack ≤ (2 ^ (j + 1074) : ℕ)) := by
  have hrange : 2 ^ (j + 1074) < units (2 ^ 53) 971 := by
    rw [units, ← pow_add]
    exact Nat.pow_lt_pow_right (by norm_num) (by omega)
  have hpos : 0 < units m e := Nat.mul_pos hm (by positivity)
  have hc : Canonical m e := stored_unpack s hs
  have hstored : Stored x.toModel.unpack := stored_unpack x
  rw [unpack_div, hs]
  generalize x.toModel.unpack = u at hx hstored
  rcases u with ⟨_ | _⟩ | _ | s | ⟨_ | _, n, f, hn⟩ <;> simp only [Nonnegative] at hx
  case infinity.positive =>
    have hdiv : stored (UnpackedFloat.div Format.binary64 (.infinity .positive) (.finite .positive m e hm)) =
        .infinity .positive := unpack_pack_infinity _
    rw [hdiv]
    exact ⟨trivial, fun _ => le_top, fun h => absurd h not_top_lt⟩
  case zero =>
    have hdiv : stored (UnpackedFloat.div Format.binary64 (.zero s) (.finite .positive m e hm)) =
        .zero (s / .positive) := unpack_pack_zero _
    rw [hdiv]
    refine ⟨trivial, fun h => ?_, fun _ => bot_le⟩
    rw [magnitude, ← Nat.cast_zero, Nat.cast_le] at h
    exact absurd h (Nat.not_le.mpr (Nat.mul_pos (Nat.two_pow_pos j) hpos))
  case finite.positive =>
    obtain ⟨hnonneg, hq, hreach, hbelow⟩ := div_finite hn hm (hstored rfl) hc j rfl
    obtain ⟨hnonneg', hle⟩ := unpack_pack_nonnegative hnonneg hq
    rw [magnitude, Nat.cast_le, Nat.cast_lt]
    exact ⟨hnonneg', fun h => (hreach h).trans hle, fun h => magnitude_stored_le hq hrange (hbelow h)⟩

/-- Whole steps that fit into a part are bounded by those that fit into the whole. -/
theorem floorNat_div_lt {part whole s : Float} (hpart : Nonnegative part.toModel.unpack)
    (hwhole : Nonnegative whole.toModel.unpack)
    (hle : magnitude part.toModel.unpack ≤ magnitude whole.toModel.unpack)
    (hs : Scalar.isPositive s = true) {j : ℕ} (hj : j < 63) (h : floorNat (whole / s) < 2 ^ j) :
    floorNat (part / s) < 2 ^ (j + 1) := by
  obtain ⟨m, e, hm, hs⟩ := exists_of_isPositive hs
  obtain ⟨hnonneg, hreach, -⟩ := div_spec hwhole hs (j := j) (by omega)
  obtain ⟨hnonneg', -, hbelow⟩ := div_spec hpart hs (j := j) (by omega)
  rw [← not_le, two_pow_le_floorNat_iff hnonneg (by omega)] at h
  have hpart := hbelow (hle.trans_lt (not_le.mp (mt hreach h)))
  rw [← not_le, two_pow_le_floorNat_iff hnonneg' (by omega)]
  refine fun hlarge => absurd (hlarge.trans hpart) ?_
  rw [Nat.cast_le, not_le]
  exact Nat.pow_lt_pow_right (by norm_num) (by omega)

end QubitPulse.Double
