import QubitPulse.Proofs.Double.Canonical

/-!
# Rounding of doubles

A magnitude is rounded by cutting off the places below the last one that the format keeps, adding at
most one in that place, and shifting once more if this carried into a new binary place. What matters
for sums is that rounding never falls below a stored magnitude that the exact value reaches.
-/
namespace QubitPulse.Double
open Float.Model Float.Model.UnpackedFloat

theorem targetExponent_eq (t : ℤ) : Format.binary64.targetExponent t = max (t - 53) (-1074) := by
  simp [Format.targetExponent, Format.mantissaBits, Format.minExponent]

theorem mantissa_shiftRight (em : ExtendedMantissa) (n : ℕ) :
    (em >>> n).mantissa = em.mantissa / 2 ^ n := by
  change (n.repeat ExtendedMantissa.shiftRightOne em).mantissa = _
  induction n with
  | zero => simp [Nat.repeat]
  | succ n ih =>
    simp only [Nat.repeat, ExtendedMantissa.shiftRightOne, ih]
    rw [Nat.div_div_eq_div_mul, pow_succ]

theorem roundedMantissa_bounds (em : ExtendedMantissa) :
    em.mantissa ≤ em.roundedMantissa ∧ em.roundedMantissa ≤ em.mantissa + 1 := by
  obtain ⟨m, r, s⟩ := em
  cases r <;> cases s <;>
    simp [ExtendedMantissa.roundedMantissa, ExtendedMantissa.accuracy, Accuracy.roundToNearestEven]
  omega

theorem shiftToExponent_exact (m : ℕ) (e t : ℤ) (h : t ≤ e) :
    shiftToExponent m e .exact t = (⟨m, false, false⟩, e) := by
  have h0 : (t - e).toNat = 0 := by omega
  simp only [shiftToExponent, h0]
  simp [ExtendedMantissa.ofMantissaAndAccuracy, HShiftRight.hShiftRight, Nat.repeat]

theorem mantissa_residual (m k : ℕ) (accuracy : Accuracy) :
    (ExtendedMantissa.ofMantissaAndAccuracy m accuracy >>> k).mantissa = m / 2 ^ k := by
  have start : (ExtendedMantissa.ofMantissaAndAccuracy m accuracy).mantissa = m := by
    rcases accuracy with _ | (_ | _ | _) <;> rfl
  rw [mantissa_shiftRight, start]

theorem mantissa_shiftToExponent (m : ℕ) (e t : ℤ) (accuracy : Accuracy) :
    (shiftToExponent m e accuracy t).1.mantissa = m / 2 ^ (t - e).toNat :=
  mantissa_residual m _ accuracy

/-- A rounded significand of at most 53 bits, or the one of 54 bits that a carry leaves, is stored
without a change of its value. -/
theorem carry_spec {r : ℕ} {t : ℤ} (hr : 0 < r) (hle : r ≤ 2 ^ 53) (ht : -1074 ≤ t)
    (hfull : -1074 < t → 2 ^ 52 ≤ r) :
    let shifted := shiftToTargetExponent Format.binary64 r t .exact
    Canonical shifted.1.mantissa shifted.2 ∧ units shifted.1.mantissa shifted.2 = units r t := by
  unfold shiftToTargetExponent
  simp only [totalExponent, targetExponent_eq]
  rcases Nat.lt_or_ge r (2 ^ 53) with hlt | hge
  · have hlog : r.log2 < 53 := (Nat.log2_lt hr.ne').mpr hlt
    rw [shiftToExponent_exact r t _ (by omega)]
    exact ⟨⟨hr, hlt, ht, hfull⟩, rfl⟩
  · obtain rfl : r = 2 ^ 53 := le_antisymm hle hge
    have hlog : (2 ^ 53 : ℕ).log2 = 53 := Nat.log2_two_pow
    have hone : (max (((2 ^ 53 : ℕ).log2 : ℤ) + 1 + t - 53) (-1074) - t).toNat = 1 := by
      omega
    rw [mantissa_shiftToExponent, hone]
    simp only [shiftToExponent, hone]
    refine ⟨⟨by norm_num, by norm_num, by omega, fun _ => by norm_num⟩, ?_⟩
    have hexp : (t + ((1 : ℕ) : ℤ) + 1074).toNat = (t + 1074).toNat + 1 := by omega
    rw [units, units, hexp, pow_succ]
    ring

theorem log2_shiftLeft {m : ℕ} (hm : 0 < m) (k : ℕ) : (m <<< k).log2 = m.log2 + k := by
  rw [Nat.shiftLeft_eq, Nat.log2_eq_iff (by positivity)]
  obtain ⟨hlow, hhigh⟩ := (Nat.log2_eq_iff hm.ne').mp rfl
  constructor
  · rw [pow_add]
    exact Nat.mul_le_mul_right _ hlow
  · rw [Nat.add_right_comm, pow_add]
    exact Nat.mul_lt_mul_of_pos_right hhigh (by positivity)

/-- Counting in a finer unit does not change a magnitude. -/
theorem units_shiftLeft (m : ℕ) {e t : ℤ} (hle : t ≤ e) (ht : -1074 ≤ t) :
    units (m <<< (e - t).toNat) t = units m e := by
  have hexp : (e + 1074).toNat = (e - t).toNat + (t + 1074).toNat := by omega
  rw [units, units, Nat.shiftLeft_eq, hexp, pow_add, mul_assoc]

/-- What is at most a number is at most its whole multiple of a coarser unit. -/
theorem units_le_div {n M k : ℕ} {f E t : ℤ} (hn : Canonical n f) (hE : -1074 ≤ E)
    (hk : t = E + k) (hfull : -1074 < t → 2 ^ 52 ≤ M / 2 ^ k) (hle : units n f ≤ units M E) :
    units n f ≤ units (M / 2 ^ k) t := by
  have hM : units M E = M * 2 ^ (E + 1074).toNat := rfl
  rcases le_or_gt t f with htf | hft
  · have hf : (f + 1074).toNat = (f - t).toNat + k + (E + 1074).toNat := by omega
    have ht : (t + 1074).toNat = k + (E + 1074).toNat := by omega
    have hn' : units n f = n * 2 ^ (f - t).toNat * 2 ^ k * 2 ^ (E + 1074).toNat := by
      rw [units, hf, pow_add, pow_add]
      ring
    have hmul : n * 2 ^ (f - t).toNat * 2 ^ k ≤ M := by
      rw [hn', hM] at hle
      exact Nat.le_of_mul_le_mul_right hle (by positivity)
    have hdiv : n * 2 ^ (f - t).toNat ≤ M / 2 ^ k :=
      (Nat.le_div_iff_mul_le (by positivity)).mpr hmul
    rw [hn', units, ht, pow_add, mul_assoc]
    exact Nat.mul_le_mul_right _ hdiv
  · have hf := hn.least
    have ht : (t + 1074).toNat = (f + 1074).toNat + 1 + (t - f - 1).toNat := by omega
    calc units n f ≤ 2 ^ 53 * 2 ^ (f + 1074).toNat := Nat.mul_le_mul_right _ hn.lt.le
      _ = 2 ^ 52 * 2 ^ ((f + 1074).toNat + 1) := by rw [pow_succ]; ring
      _ ≤ 2 ^ 52 * 2 ^ (t + 1074).toNat := by
        rw [ht]
        exact Nat.mul_le_mul_left _ (Nat.pow_le_pow_right (by norm_num) (by omega))
      _ ≤ units (M / 2 ^ k) t := Nat.mul_le_mul_right _ (hfull (by omega))

/-- Exponent of the last place that is kept of an exact magnitude. -/
def lastPlace (M : ℕ) (E : ℤ) : ℤ := max ((M.log2 : ℤ) + 1 + E - 53) (-1074)

/-- A magnitude without its lowest places, with what is kept of these for rounding. -/
def cut (M k : ℕ) : ExtendedMantissa := (⟨M, false, false⟩ : ExtendedMantissa) >>> k

theorem mantissa_cut (M k : ℕ) : (cut M k).mantissa = M / 2 ^ k := mantissa_shiftRight _ k

/-- What is left of a magnitude that is cut off at its last place has at most 53 bits, and fewer only at the
least exponent. -/
theorem cut_bounds {M k : ℕ} {E : ℤ} (hM : 0 < M) (hk : lastPlace M E = E + k) :
    M / 2 ^ k < 2 ^ 53 ∧ (-1074 < E + k → 2 ^ 52 ≤ M / 2 ^ k) := by
  unfold lastPlace at hk
  obtain ⟨hlow, hhigh⟩ := (Nat.log2_eq_iff hM.ne').mp rfl
  refine ⟨?_, fun h => ?_⟩
  · rw [Nat.div_lt_iff_lt_mul (by positivity), ← pow_add]
    exact hhigh.trans_le (Nat.pow_le_pow_right (by norm_num) (by omega))
  · rw [Nat.le_div_iff_mul_le (by positivity), ← pow_add]
    exact (Nat.pow_le_pow_right (by norm_num) (by omega)).trans hlow

/-- A magnitude is rounded in its last place, whatever is known of what was cut off before; if something is
left, the result is stored without a further change of its value. -/
theorem roundWithAccuracy_residual (s : Sign) {M k r : ℕ} {E : ℤ} {accuracy : Accuracy}
    (hk : lastPlace M E = E + k)
    (hbounds : M / 2 ^ k < 2 ^ 53 ∧ (-1074 < E + k → 2 ^ 52 ≤ M / 2 ^ k))
    (hr : (ExtendedMantissa.ofMantissaAndAccuracy M accuracy >>> k).roundedMantissa = r) :
    (r = 0 → roundWithAccuracy Format.binary64 s M E accuracy = .zero s) ∧
      (0 < r → ∃ m e h, roundWithAccuracy Format.binary64 s M E accuracy = .finite s m e h ∧
        Canonical m e ∧ units m e = units r (E + k)) := by
  have hfirst : shiftToTargetExponent Format.binary64 M E accuracy =
      (ExtendedMantissa.ofMantissaAndAccuracy M accuracy >>> k, E + k) := by
    have hshift : (Format.binary64.targetExponent (totalExponent M E) - E).toNat = k := by
      rw [targetExponent_eq, totalExponent]
      unfold lastPlace at hk
      omega
    simp only [shiftToTargetExponent, shiftToExponent, hshift]
  obtain ⟨hr₁, hr₂⟩ := roundedMantissa_bounds (ExtendedMantissa.ofMantissaAndAccuracy M accuracy >>> k)
  rw [mantissa_residual, hr] at hr₁ hr₂
  obtain ⟨hq, hfull⟩ := hbounds
  have hleast : -1074 ≤ E + (k : ℤ) := hk ▸ le_max_right _ _
  simp only [roundWithAccuracy, hfirst, hr]
  refine ⟨fun hzero => ?_, fun hpos => ?_⟩
  · have hfinal : (shiftToTargetExponent Format.binary64 r (E + k) .exact).1.mantissa = 0 := by
      rw [shiftToTargetExponent, mantissa_shiftToExponent, hzero, Nat.zero_div]
    rw [dif_pos hfinal]
  · obtain ⟨hcanonical, hunits⟩ := carry_spec hpos (by omega) hleast fun h => (hfull h).trans hr₁
    refine ⟨_, _, hcanonical.pos, ?_, hcanonical, hunits⟩
    rw [dif_neg hcanonical.pos.ne']

/-- A magnitude of which something is left is rounded in its last place; the result is stored without a
further change of its value. -/
theorem roundWithAccuracy_eq (s : Sign) {M k : ℕ} {E : ℤ} (hM : 0 < M) (hk : lastPlace M E = E + k)
    (hpos : 0 < M / 2 ^ k) :
    ∃ m e h, roundWithAccuracy Format.binary64 s M E .exact = .finite s m e h ∧ Canonical m e ∧
      units m e = units (cut M k).roundedMantissa (E + k) := by
  have hrounded := (roundedMantissa_bounds (cut M k)).1
  rw [mantissa_cut] at hrounded
  exact (roundWithAccuracy_residual s hk (cut_bounds hM hk) rfl).2 (hpos.trans_le hrounded)

theorem roundWithAccuracy_spec (s : Sign) {M : ℕ} {E : ℤ} (hM : 0 < M) (hE : -1074 ≤ E)
    (hfine : E ≤ lastPlace M E) :
    ∃ m e h, roundWithAccuracy Format.binary64 s M E .exact = .finite s m e h ∧ Canonical m e ∧
      ∀ {n : ℕ} {f : ℤ}, Canonical n f → units n f ≤ units M E → units n f ≤ units m e := by
  obtain ⟨k, hk⟩ : ∃ k : ℕ, lastPlace M E = E + k := ⟨(lastPlace M E - E).toNat, by omega⟩
  obtain ⟨-, hfull⟩ := cut_bounds hM hk
  have hpos : 0 < M / 2 ^ k := by
    rcases eq_or_lt_of_le (hk ▸ le_max_right _ _ : -1074 ≤ E + (k : ℤ)) with h | h
    · obtain rfl : k = 0 := by omega
      simpa using hM
    · exact lt_of_lt_of_le (by norm_num) (hfull h)
  obtain ⟨m, e, h, heq, hcanonical, hunits⟩ := roundWithAccuracy_eq s hM hk hpos
  refine ⟨m, e, h, heq, hcanonical, fun hn hle => ?_⟩
  have hr := (roundedMantissa_bounds (cut M k)).1
  rw [mantissa_cut] at hr
  rw [hunits]
  exact (units_le_div hn hE rfl hfull hle).trans (Nat.mul_le_mul_right _ hr)

/-- A magnitude of whole units rounds to a stored one, and not below any stored one that it
reaches. -/
theorem round_spec (s : Sign) {m : ℕ} {e : ℤ} (hm : 0 < m) (he : -1074 ≤ e) :
    ∃ m' e' h, UnpackedFloat.round Format.binary64 s m e = .finite s m' e' h ∧ Canonical m' e' ∧
      ∀ {n : ℕ} {f : ℤ}, Canonical n f → units n f ≤ units m e → units n f ≤ units m' e' := by
  simp only [UnpackedFloat.round, decreaseExponent, totalExponent, targetExponent_eq]
  set t : ℤ := max ((m.log2 : ℤ) + 1 + e - 53) (-1074) with ht
  obtain ⟨k, hk⟩ : ∃ k : ℕ, (e - t).toNat = k := ⟨_, rfl⟩
  rw [hk]
  have hlog := log2_shiftLeft hm k
  have hsame : units (m <<< k) (e - k) = units m e := by
    have hshift : (e - (e - (k : ℤ))).toNat = k := by omega
    rw [← units_shiftLeft m (e := e) (t := e - k) (by omega) (by omega), hshift]
  have hpos : 0 < m <<< k := by
    rw [Nat.shiftLeft_eq]
    positivity
  obtain ⟨m', e', h, heq, hcanonical, hle⟩ :=
    roundWithAccuracy_spec s (E := e - k) hpos (by omega) (by unfold lastPlace; omega)
  refine ⟨m', e', h, heq, hcanonical, fun hn hunits => hle hn ?_⟩
  rwa [hsame]

theorem normalize_spec {m : ℕ} {e : ℤ} (hm : 0 < m) (he : -1074 ≤ e) :
    ∃ m' e' h, UnpackedFloat.normalize Format.binary64 m e .positive = .finite .positive m' e' h ∧
      Canonical m' e' ∧
      ∀ {n : ℕ} {f : ℤ}, Canonical n f → units n f ≤ units m e → units n f ≤ units m' e' := by
  have hcompare : compare (m : ℤ) 0 = .gt := by
    rw [compare_gt_iff_gt]
    omega
  simp only [UnpackedFloat.normalize, hcompare, Int.toNat_natCast]
  exact round_spec .positive hm he

end QubitPulse.Double
