import QubitPulse.Operator.Exponential
import QubitPulse.Proofs.Decimal.Document
import QubitPulse.Proofs.Double.Bounds

/-!
# Powers of two and doublings

Two to a natural power is a double up to the exponent 1023 and infinite beyond. Dividing by it loses a number
only if it is below the least positive double afterwards. Doublings are counted by the binary exponent, with the
steps above a power of two that its rounded logarithm does not see.
-/
namespace QubitPulse.Double
open Float.Model Float.Model.UnpackedFloat

/-! ## Powers of two -/

theorem canonical_two_pow {e : ℤ} (he : -1074 ≤ e) : Canonical (2 ^ 52) e :=
  ⟨by decide, by decide, he, fun _ => le_rfl⟩

/-- The bits of a power of two in the range. -/
theorem toBitVec_twoPow {n : ℕ} (hn : n < 1024) : ((UInt64.ofNat (n + 1023)) <<< 52).toBitVec =
    UnpackedFloat.pack Format.binary64 (.finite .positive (2 ^ 52) (n - 52) (by decide)) := by
  have hword : (UInt64.ofNat (n + 1023)).toNat = n + 1023 :=
    UInt64.toNat_ofNat_of_lt' (by unfold UInt64.size; omega)
  have hfield : ((n : ℤ) - 52 + 1023 + 52).toNat = n + 1023 := by omega
  have hexponent : (BitVec.ofNat 11 (n + 1023)).toNat = n + 1023 := by
    rw [BitVec.toNat_ofNat]
    exact Nat.mod_eq_of_lt (by omega)
  have hlog : (2 ^ 52 : ℕ).log2 + 1 = 53 := by rw [Nat.log2_two_pow]
  rw [pack_finite, hfield, if_neg (by omega), if_pos hlog]
  refine BitVec.eq_of_toNat_eq ?_
  have hfields : packComponents Format.binary64 .positive (BitVec.ofNat 11 (n + 1023)) (BitVec.ofNat 52 (2 ^ 52)) =
      (0#1 ++ BitVec.ofNat 11 (n + 1023)) ++ 0#52 := rfl
  rw [hfields, BitVec.toNat_append, BitVec.toNat_append, hexponent]
  change ((UInt64.ofNat (n + 1023)) <<< 52).toNat = _
  rw [UInt64.toNat_shiftLeft, hword]
  have hshift : UInt64.toNat 52 % 64 = 52 := rfl
  have hsmall : (n + 1023) * 2 ^ 52 < 2 ^ 64 := by omega
  rw [hshift, Nat.shiftLeft_eq, Nat.mod_eq_of_lt hsmall]
  simp [Nat.shiftLeft_eq]

theorem unpack_twoPow {n : ℕ} (hn : n < 1024) :
    (twoPow n).toModel.unpack = .finite .positive (2 ^ 52) (n - 52) (by decide) := by
  have hstored : stored (.finite .positive (2 ^ 52) (n - 52) (by decide)) =
      .finite .positive (2 ^ 52) (n - 52) (by decide) := by
    rw [stored, unpack_pack (by decide) (canonical_two_pow (by omega)), if_neg (by omega)]
  have hbits : (twoPow n).toModel.unpack = stored (UnpackedFloat.unpack Format.binary64
      ((UInt64.ofNat (n + 1023)) <<< 52).toBitVec) := by
    unfold twoPow
    rw [if_pos hn]
    rfl
  rw [hbits, toBitVec_twoPow hn]
  exact (congrArg stored hstored).trans hstored

theorem twoPow_eq_infinite {n : ℕ} (hn : 1024 ≤ n) : (twoPow n).toModel.unpack = .infinity .positive := by
  unfold twoPow
  rw [if_neg (by omega)]
  rfl

/-- Powers of two are finite up to the exponent 1023. -/
theorem isFinite_twoPow {n : ℕ} : Scalar.isFinite (twoPow n) = true ↔ n ≤ 1023 := by
  change (twoPow n).toModel.unpack.isFinite = true ↔ _
  rcases Nat.lt_or_ge n 1024 with hn | hn
  · rw [unpack_twoPow hn]
    exact iff_of_true rfl (by omega)
  · rw [twoPow_eq_infinite hn]
    exact iff_of_false (by decide) (by omega)

theorem magnitude_twoPow {n : ℕ} (hn : n < 1024) : magnitude (twoPow n).toModel.unpack = (2 ^ (n + 1074) : ℕ) := by
  rw [unpack_twoPow hn, magnitude, units, ← pow_add]
  exact congrArg (fun n : ℕ => ((2 ^ n : ℕ) : ℕ∞)) (by omega)

theorem exists_atMost {x : Float} (h : Scalar.isFinite x = true) : ∃ t, AtMost x t := by
  rcases vanishes_or_of_isFinite h with hzero | ⟨s, m, e, hm, hx⟩
  · exact ⟨0, hzero.atMost 0⟩
  · refine ⟨units m e, ?_⟩
    rw [AtMost, hx, magnitude, Nat.cast_le]
    exact Nat.lt_two_pow_self.le

/-- What vanishes when it is divided by a power of two is less than the power in the least positive doubles. -/
theorem atMost_of_vanishing_quotient {x : Float} {n : ℕ} (hx : Scalar.isFinite x = true) (hn : n < 1024)
    (h : Vanishes (x / twoPow n)) : AtMost x (n + 1) := by
  by_contra hlarge
  obtain ⟨t, ht⟩ := exists_atMost hx
  have hleast : AtLeast x (n + 1) := (not_le.mp hlarge).le
  have hquotient : AtLeast (x / twoPow n) 0 :=
    hleast.div ht (magnitude_twoPow hn).ge (magnitude_twoPow hn).le (by omega)
  exact hquotient.not_vanishes h

/-- Nothing finite is left of a number that is divided by infinity. -/
theorem vanishes_div_infinite {x y : Float} (hx : Scalar.isFinite x = true)
    (hy : y.toModel.unpack = .infinity .positive) : Vanishes (x / y) := by
  rcases vanishes_or_of_isFinite hx with ⟨s, hx⟩ | ⟨s, m, e, hm, hx⟩ <;>
    exact ⟨s / .positive, by rw [unpack_div, hx, hy]; exact unpack_pack_zero _⟩

/-! ## Doublings -/

theorem toNat_unpackMantissa (b : BitVec 64) :
    (@unpackMantissa Format.binary64 b).toNat = b.toNat % 2 ^ 52 := by
  simp [unpackMantissa, BitVec.extractLsb]

/-- Significand and exponent of the bits are those of the value. -/
theorem ofBits_of_unpack {x : Float} {s : Sign} {m : ℕ} {e : ℤ} {hm : 0 < m}
    (hx : x.toModel.unpack = .finite s m e hm) :
    ∃ b, Binary.ofBits x.toBits = some b ∧ b.significand = m ∧ b.exponent = e := by
  have hfields := (unpack_eq_ofFields x.toBits.toBitVec).symm.trans hx
  have hexponent := toNat_unpackExponent x.toBits.toBitVec
  have hmantissa := toNat_unpackMantissa x.toBits.toBitVec
  change _ = x.toBits.toNat / Binary.hiddenBit % Nat.pow 2 11 at hexponent
  change _ = x.toBits.toNat % Binary.hiddenBit at hmantissa
  have hbit : Binary.hiddenBit = 2 ^ 52 := rfl
  have hbottom : ∀ v : BitVec 11, v = 0#11 ↔ v.toNat = 0 := fun v => by rw [← BitVec.toNat_inj]; rfl
  have htop : ∀ v : BitVec 11, v = -1#11 ↔ v.toNat = 2047 := fun v => by rw [← BitVec.toNat_inj]; rfl
  unfold Binary.ofBits
  dsimp only
  rw [← hexponent, ← hmantissa]
  generalize @unpackExponent Format.binary64 x.toBits.toBitVec = exponent at hfields ⊢
  generalize @unpackMantissa Format.binary64 x.toBits.toBitVec = mantissa at hfields ⊢
  unfold ofFields at hfields
  simp only [htop, hbottom] at hfields
  split_ifs at hfields ⊢
  · injection hfields with _ hsignificand hplace
    refine ⟨_, rfl, hsignificand, ?_⟩
    rw [← hplace]
    dsimp only [Binary.leastExponent]
    omega
  · injection hfields with _ hsignificand hplace
    refine ⟨_, rfl, ?_, ?_⟩
    · rw [← hsignificand, toNat_one_append, hbit]
    · rw [← hplace]
      dsimp only [Binary.leastExponent]
      omega

/-- Doublings of one to a finite double of at least one. -/
theorem doublings_finite {y : Float} {m : ℕ} {e : ℤ} {hm : 0 < m}
    (hy : y.toModel.unpack = .finite .positive m e hm) (hone : -52 ≤ e) :
    doublings y = if m - 2 ^ 52 ≤ logarithmSlack (e + 52).toNat then (e + 52).toNat
      else (e + 52).toNat + 1 := by
  obtain ⟨b, hb, hsignificand, hexponent⟩ := ofBits_of_unpack hy
  have hnan : y.isNaN = false := congrArg UnpackedFloat.isNaN hy
  have hfull := (stored_unpack y hy).full (by omega)
  have hlarge : ¬y < 1.0 := by
    have hone₀ : Nonnegative (1.0 : Float).toModel.unpack := trivial
    have hmagnitude : magnitude (1.0 : Float).toModel.unpack = (units (2 ^ 52) (-52) : ℕ) := rfl
    rw [lt_iff_magnitude (by rw [hy]; trivial) hone₀, not_lt, hmagnitude, hy, magnitude, Nat.cast_le]
    exact Nat.mul_le_mul hfull (Nat.pow_le_pow_right (by norm_num) (by omega))
  unfold doublings
  rw [hnan, Bool.false_or, if_neg (by simpa using hlarge), hb]
  dsimp only
  rw [hsignificand, hexponent]
  rfl

theorem doublings_infinite {y : Float} (hy : y.toModel.unpack = .infinity .positive) :
    doublings y = mostDoublings := by
  have hnan : y.isNaN = false := congrArg UnpackedFloat.isNaN hy
  have hbits : Binary.ofBits y.toBits = none := ofBits_eq_none.mpr (congrArg UnpackedFloat.isFinite hy)
  have hlarge : ¬y < 1.0 := by
    have hone₀ : Nonnegative (1.0 : Float).toModel.unpack := trivial
    rw [lt_iff_magnitude (by rw [hy]; trivial) hone₀, not_lt, hy]
    exact le_top
  unfold doublings
  rw [hnan, Bool.false_or, if_neg (by simpa using hlarge), hbits]

/-! ## Halves -/

/-- Dividing by one half is exact for magnitudes with all their places. -/
theorem div_half_unpacked {m : ℕ} {e : ℤ} (hm : 0 < m) (hc : Canonical m e) (hfull : 2 ^ 52 ≤ m) :
    UnpackedFloat.div Format.binary64 (.finite .positive m e hm) (.finite .positive (2 ^ 52) (-53) (by decide)) =
      .finite .positive m (e + 1) hm := by
  have hleast := hc.least
  have hlog : m.log2 = 52 := (Nat.log2_eq_iff hm.ne').mpr ⟨hfull, hc.lt⟩
  have hplace : min (e - -53) (max ((m.log2 : ℤ) + 1 + e - ((2 ^ 52 : ℕ).log2 + 1 + -53) - 53) (-1074)) = e := by
    rw [hlog, Nat.log2_two_pow]
    omega
  have hshift : (e - -53 - e).toNat = 53 := by omega
  have hmultiple : m * 2 ^ 53 = m * 2 ^ 1 * 2 ^ 52 := by ring
  have hcore : divCore Format.binary64 m e (2 ^ 52) (-53) = (m * 2 ^ 1, e, .exact) := by
    simp only [divCore, totalExponent, targetExponent_eq, hplace, hshift, Nat.shiftLeft_eq, hmultiple,
      Nat.mul_div_cancel _ (Nat.two_pow_pos 52), Nat.mul_mod_left]
    rfl
  have hsame : e = e + 1 - (1 : ℕ) := by push_cast; omega
  have hcanonical : Canonical m (e + 1) := ⟨hm, hc.lt, by omega, fun _ => hfull⟩
  simp only [UnpackedFloat.div, hcore]
  conv_lhs => rw [hsame]
  exact roundWithAccuracy_canonical .positive hm hcanonical 1

theorem unpack_half : (Operator.seriesNorm : Float).toModel.unpack = .finite .positive (2 ^ 52) (-53) (by decide) :=
  rfl

/-- Twice a number with all its places is stored with the next exponent, or is infinite. -/
theorem unpack_div_half {x : Float} {m : ℕ} {e : ℤ} {hm : 0 < m} (hx : x.toModel.unpack = .finite .positive m e hm)
    (hfull : 2 ^ 52 ≤ m) : (x / Operator.seriesNorm).toModel.unpack =
      if 970 < e then .infinity .positive else .finite .positive m (e + 1) hm := by
  have hc : Canonical m e := stored_unpack x hx
  have hleast := hc.least
  rw [unpack_div, hx, unpack_half, div_half_unpacked hm hc hfull, stored,
    unpack_pack hm ⟨hm, hc.lt, by omega, fun _ => hfull⟩]
  exact if_congr (by omega) rfl rfl

end QubitPulse.Double
