import Mathlib

/-!
# Stored doubles

A finite double other than zero is stored with a significand and a binary exponent that its value
determines. Here the three fields of the 64 bits are related to this form, in both directions, and
the order of stored magnitudes to the order of their values.
-/
namespace QubitPulse.Double
open Float.Model Float.Model.UnpackedFloat

/-- Significand and exponent of a stored double: the significand has at most 53 bits, and fewer only
at the least exponent. -/
structure Canonical (m : ℕ) (e : ℤ) : Prop where
  pos : 0 < m
  lt : m < 2 ^ 53
  least : -1074 ≤ e
  full : -1074 < e → 2 ^ 52 ≤ m

/-- A magnitude counted in units of the least positive double. -/
def units (m : ℕ) (e : ℤ) : ℕ := m * 2 ^ (e + 1074).toNat

/-- Stored magnitudes are ordered by their exponents and then by their significands. -/
theorem units_lt_of_lt {m m' : ℕ} {e e' : ℤ} (h : Canonical m e) (h' : Canonical m' e')
    (hlt : e < e' ∨ e = e' ∧ m < m') : units m e < units m' e' := by
  have hleast := h.least
  rcases hlt with hlt | ⟨rfl, hlt⟩
  · obtain ⟨k, hk⟩ : ∃ k : ℕ, (e' + 1074).toNat = (e + 1074).toNat + 1 + k :=
      ⟨(e' - e - 1).toNat, by omega⟩
    calc units m e < 2 ^ 53 * 2 ^ (e + 1074).toNat :=
          Nat.mul_lt_mul_of_pos_right h.lt (by positivity)
      _ = 2 ^ 52 * 2 ^ ((e + 1074).toNat + 1) := by rw [pow_succ 2 (e + 1074).toNat]; ring
      _ ≤ 2 ^ 52 * 2 ^ (e' + 1074).toNat := by
        rw [hk]
        exact Nat.mul_le_mul_left _ (Nat.pow_le_pow_right (by norm_num) (by omega))
      _ ≤ units m' e' := Nat.mul_le_mul_right _ (h'.full (by omega))
  · exact Nat.mul_lt_mul_of_pos_right hlt (by positivity)

/-! ## The three fields -/

theorem unpackSign_packComponents (spec : Format) (s : Sign) (exponent : BitVec spec.exponentBits)
    (mantissa : BitVec spec.mantissaBitsWithoutImplicit) :
    unpackSign (packComponents spec s exponent mantissa) = s.toBitVec := by
  ext i hi
  obtain rfl : i = 0 := by omega
  have h : (s.toBitVec ++ exponent)[spec.exponentBits] = s.toBitVec[0] := by
    rw [BitVec.getElem_append]
    simp
  simpa [unpackSign, packComponents, BitVec.getLsbD_append] using h

theorem toNat_one_append (mantissa : BitVec 52) :
    (1#1 ++ mantissa).toNat = 2 ^ 52 + mantissa.toNat := by
  rw [BitVec.toNat_append, ← Nat.shiftLeft_add_eq_or_of_lt mantissa.isLt]
  rfl

/-- The double whose three fields are given. -/
def ofFields (s : Sign) (exponent : BitVec 11) (mantissa : BitVec 52) : UnpackedFloat :=
  if exponent = -1#11 then if mantissa = 0#52 then .infinity s else .notANumber
  else if exponent = 0#11 then
    if h : mantissa = 0#52 then .zero s
    else .finite s mantissa.toNat ((exponent.toNat : ℤ) - (1023 + 52) + 1)
      (by simpa [BitVec.toNat_pos, BitVec.pos_iff_ne_zero])
  else .finite s (1#1 ++ mantissa).toNat ((exponent.toNat : ℤ) - (1023 + 52))
    (by rw [toNat_one_append]; omega)

theorem unpack_eq_ofFields (b : BitVec 64) :
    UnpackedFloat.unpack Format.binary64 b =
      ofFields (Sign.ofBitVec (@unpackSign Format.binary64 b))
        (@unpackExponent Format.binary64 b)
        (@unpackMantissa Format.binary64 b) :=
  rfl

theorem unpack_packComponents (s : Sign) (exponent : BitVec 11) (mantissa : BitVec 52) :
    UnpackedFloat.unpack Format.binary64 (packComponents Format.binary64 s exponent mantissa) =
      ofFields s exponent mantissa := by
  have hs : Sign.ofBitVec s.toBitVec = s := by cases s <;> rfl
  rw [unpack_eq_ofFields, unpackSign_packComponents, unpackExponent_packComponents,
    unpackMantissa_packComponents, hs]

/-- Every finite double but zero is stored in canonical form. -/
theorem ofFields_finite {s s' : Sign} {exponent : BitVec 11} {mantissa : BitVec 52} {m : ℕ}
    {e : ℤ} {h : 0 < m} (heq : ofFields s exponent mantissa = .finite s' m e h) :
    Canonical m e := by
  have hm := mantissa.isLt
  unfold ofFields at heq
  by_cases htop : exponent = -1#11
  · rw [if_pos htop] at heq
    split_ifs at heq
  rw [if_neg htop] at heq
  by_cases hbottom : exponent = 0#11
  · rw [if_pos hbottom] at heq
    split_ifs at heq
    injection heq with _ hmantissa hexponent
    have hzero : exponent.toNat = 0 := by rw [hbottom]; rfl
    exact ⟨h, by omega, by omega, fun _ => by omega⟩
  · rw [if_neg hbottom] at heq
    injection heq with _ hmantissa hexponent
    rw [toNat_one_append] at hmantissa
    have hpos : exponent.toNat ≠ 0 := fun h0 => hbottom (BitVec.eq_of_toNat_eq h0)
    exact ⟨h, by omega, by omega, fun _ => by omega⟩

theorem pack_finite (s : Sign) (m : ℕ) (e : ℤ) (h : 0 < m) :
    UnpackedFloat.pack Format.binary64 (.finite s m e h) =
      if 2 ^ 11 ≤ (e + 1023 + 52).toNat + 1 then packComponents Format.binary64 s (-1#11) 0#52
      else if m.log2 + 1 = 53 then packComponents Format.binary64 s
        (BitVec.ofNat 11 (e + 1023 + 52).toNat) (BitVec.ofNat 52 m)
      else packComponents Format.binary64 s 0#11 (BitVec.ofNat 52 m) :=
  rfl

/-- What is packed is read back, but for magnitudes beyond the range, which become infinite. -/
theorem unpack_pack {s : Sign} {m : ℕ} {e : ℤ} (h : 0 < m) (hc : Canonical m e) :
    UnpackedFloat.unpack Format.binary64 (UnpackedFloat.pack Format.binary64 (.finite s m e h)) =
      if 971 < e then .infinity s else .finite s m e h := by
  have hleast := hc.least
  have hlt := hc.lt
  rw [pack_finite]
  by_cases hover : 971 < e
  · rw [if_pos (by omega), if_pos hover, unpack_packComponents]
    rfl
  rw [if_neg (by omega), if_neg hover]
  by_cases hbits : m.log2 + 1 = 53
  · have hm : 2 ^ 52 ≤ m := (Nat.le_log2 h.ne').mp (by omega)
    have hexp : (BitVec.ofNat 11 (e + 1023 + 52).toNat).toNat = (e + 1023 + 52).toNat := by
      rw [BitVec.toNat_ofNat]
      omega
    have hmant : (BitVec.ofNat 52 m).toNat = m - 2 ^ 52 := by
      rw [BitVec.toNat_ofNat]
      omega
    rw [if_pos hbits, unpack_packComponents, ofFields, if_neg, if_neg]
    · congr 1
      · rw [toNat_one_append, hmant]
        omega
      · rw [hexp]
        omega
    · intro heq
      have hzero := congrArg BitVec.toNat heq
      rw [hexp] at hzero
      have : (0#11).toNat = 0 := rfl
      omega
    · intro heq
      have htop := congrArg BitVec.toNat heq
      rw [hexp] at htop
      have : (-1#11).toNat = 2047 := rfl
      omega
  · have hm : m < 2 ^ 52 := (Nat.log2_lt h.ne').mp (by have := (Nat.log2_lt h.ne').mpr hlt; omega)
    have he : e = -1074 := by
      have hfull := hc.full
      omega
    have hmant : (BitVec.ofNat 52 m).toNat = m := by
      rw [BitVec.toNat_ofNat]
      omega
    rw [if_neg hbits, unpack_packComponents, ofFields, if_neg (by decide), if_pos rfl, dif_neg]
    · congr 1
      subst he
      rfl
    · intro heq
      have hzero := congrArg BitVec.toNat heq
      rw [hmant] at hzero
      have : (0#52).toNat = 0 := rfl
      omega

theorem unpack_pack_infinity (s : Sign) :
    UnpackedFloat.unpack Format.binary64 (UnpackedFloat.pack Format.binary64 (.infinity s)) =
      .infinity s := by
  cases s <;> rfl

theorem unpack_pack_zero (s : Sign) :
    UnpackedFloat.unpack Format.binary64 (UnpackedFloat.pack Format.binary64 (.zero s)) =
      .zero s := by
  cases s <;> rfl

end QubitPulse.Double
