import QubitPulse.Proofs.Double.SmallIntegers

/-!
# Products of doubles

A product leaves the range of doubles if the exact one reaches half a place beyond the largest double. What
decides this is the round bit alone: the largest significand is odd, so that a tie is rounded away from it.
-/
namespace QubitPulse.Double
open Float.Model Float.Model.UnpackedFloat

theorem roundBit_cut (M k : ℕ) : (cut M (k + 1)).roundBit = (M / 2 ^ k % 2 != 0) := by
  rw [← mantissa_cut]
  rfl

/-- Rounding carries into a further place only from the largest significand, and then just if the round bit
is set. -/
theorem roundedMantissa_eq_two_pow {em : ExtendedMantissa} (h : em.mantissa < 2 ^ 53) :
    em.roundedMantissa = 2 ^ 53 ↔ em.mantissa = 2 ^ 53 - 1 ∧ em.roundBit = true := by
  obtain ⟨m, r, s⟩ := em
  dsimp only at h
  cases r <;> cases s <;>
    simp only [ExtendedMantissa.roundedMantissa, ExtendedMantissa.accuracy, Accuracy.roundToNearestEven] <;>
    simp <;> omega

/-- A stored magnitude has at most this exponent exactly if it is below the least one of the next. -/
theorem Canonical.exponent_le_iff {m : ℕ} {e T : ℤ} (h : Canonical m e) (hT : -1074 ≤ T) :
    e ≤ T ↔ units m e < units (2 ^ 53) T := by
  constructor
  · intro hle
    calc units m e < 2 ^ 53 * 2 ^ (e + 1074).toNat := Nat.mul_lt_mul_of_pos_right h.lt (by positivity)
      _ ≤ units (2 ^ 53) T := Nat.mul_le_mul_left _ (Nat.pow_le_pow_right (by norm_num) (by omega))
  · intro hlt
    by_contra hgt
    refine hlt.not_ge ?_
    calc units (2 ^ 53) T = 2 ^ 52 * 2 ^ ((T + 1074).toNat + 1) := by rw [units, pow_succ]; ring
      _ ≤ 2 ^ 52 * 2 ^ (e + 1074).toNat :=
        Nat.mul_le_mul_left _ (Nat.pow_le_pow_right (by norm_num) (by omega))
      _ ≤ units m e := Nat.mul_le_mul_right _ (h.full (by omega))

/-- The least magnitude, in units of `2 ^ E`, that is rounded to more than any significand at the exponent
`T`: the one half a place beyond the largest. -/
def overflowAt (T E : ℤ) : ℕ := (2 ^ 54 - 1) * 2 ^ (T - 1 - E).toNat

theorem two_pow_le_overflowAt {T E : ℤ} {k : ℕ} (h : E + k < T) : 2 ^ 53 * 2 ^ k ≤ overflowAt T E :=
  Nat.mul_le_mul (by norm_num) (Nat.pow_le_pow_right (by norm_num) (by omega))

theorem overflowAt_le_two_pow {T E : ℤ} {k : ℕ} (hfine : E < T) (h : T < E + k) :
    overflowAt T E ≤ 2 ^ 52 * 2 ^ k := by
  have hk : k = (T - 1 - E).toNat + 2 + (E + k - T - 1).toNat := by omega
  calc overflowAt T E ≤ 2 ^ 54 * 2 ^ (T - 1 - E).toNat := Nat.mul_le_mul_right _ (by norm_num)
    _ = 2 ^ 52 * 2 ^ ((T - 1 - E).toNat + 2) := by rw [pow_add]; ring
    _ ≤ 2 ^ 52 * 2 ^ k := Nat.mul_le_mul_left _ (Nat.pow_le_pow_right (by norm_num) (by omega))

/-- At its own last place a magnitude carries from half a place below the next exponent on. -/
theorem carries_iff {M j : ℕ} (hM : M / 2 ^ (j + 1) < 2 ^ 53) :
    (cut M (j + 1)).roundedMantissa < 2 ^ 53 ↔ M < (2 ^ 54 - 1) * 2 ^ j := by
  have hhalf : M / 2 ^ (j + 1) = M / 2 ^ j / 2 := by rw [pow_succ, Nat.div_div_eq_div_mul]
  have hle := (roundedMantissa_bounds (cut M (j + 1))).2
  have hcarry := roundedMantissa_eq_two_pow ((mantissa_cut M (j + 1)).trans_lt hM)
  rw [mantissa_cut, roundBit_cut, hhalf, bne_iff_ne] at hcarry
  rw [mantissa_cut] at hle
  rw [← Nat.div_lt_iff_lt_mul (by positivity)]
  omega

/-- A rounded magnitude stays below an exponent's end exactly if the exact one does not reach the half place
before it. -/
theorem rounded_lt_iff {M k : ℕ} {E T : ℤ} (hM : 0 < M) (hk : lastPlace M E = E + k) (hT : -1074 < T)
    (hfine : E < T) :
    units (cut M k).roundedMantissa (E + k) < units (2 ^ 53) T ↔ M < overflowAt T E := by
  obtain ⟨hq, hfull⟩ := cut_bounds hM hk
  obtain ⟨hlow, hhigh⟩ := roundedMantissa_bounds (cut M k)
  rw [mantissa_cut] at hlow hhigh
  have hleast : -1074 ≤ E + (k : ℤ) := hk ▸ le_max_right _ _
  rcases lt_trichotomy (E + (k : ℤ)) T with hbelow | hsame | habove
  · have hexact : M < overflowAt T E :=
      ((Nat.div_lt_iff_lt_mul (by positivity)).mp hq).trans_le (two_pow_le_overflowAt hbelow)
    have hrounded : units (cut M k).roundedMantissa (E + k) < units (2 ^ 53) T :=
      calc units (cut M k).roundedMantissa (E + k) ≤ 2 ^ 53 * 2 ^ (E + k + 1074).toNat :=
            Nat.mul_le_mul_right _ (by omega)
        _ < units (2 ^ 53) T :=
            Nat.mul_lt_mul_of_pos_left (Nat.pow_lt_pow_right (by norm_num) (by omega)) (by norm_num)
    exact iff_of_true hrounded hexact
  · obtain ⟨j, rfl⟩ : ∃ j, k = j + 1 := ⟨k - 1, by omega⟩
    have hj : (T - 1 - E).toNat = j := by omega
    rw [hsame, overflowAt, hj, ← carries_iff hq]
    exact Nat.mul_lt_mul_right (by positivity)
  · have hexact : overflowAt T E ≤ M :=
      (overflowAt_le_two_pow hfine habove).trans
        ((Nat.le_div_iff_mul_le (by positivity)).mp (hfull (by omega)))
    have hrounded : units (2 ^ 53) T ≤ units (cut M k).roundedMantissa (E + k) :=
      calc units (2 ^ 53) T = 2 ^ 52 * 2 ^ ((T + 1074).toNat + 1) := by rw [units, pow_succ]; ring
        _ ≤ 2 ^ 52 * 2 ^ (E + k + 1074).toNat :=
            Nat.mul_le_mul_left _ (Nat.pow_le_pow_right (by norm_num) (by omega))
        _ ≤ units (cut M k).roundedMantissa (E + k) :=
            Nat.mul_le_mul_right _ ((hfull (by omega)).trans hlow)
    exact iff_of_false hrounded.not_gt hexact.not_gt

/-- A stored magnitude times one of at least one is rounded to a stored magnitude, and to one of at most a
given exponent exactly if the exact product stays below the half place before the next. -/
theorem mul_spec (s s' : Sign) {m n : ℕ} {e f : ℤ} (hm : 0 < m) (hn : 0 < n) (h : Canonical m e)
    (hfull : 2 ^ 52 ≤ n) (hone : -52 ≤ f) :
    ∃ m' e' h', UnpackedFloat.mul Format.binary64 (.finite s m e hm) (.finite s' n f hn) =
        .finite (s * s') m' e' h' ∧ Canonical m' e' ∧
      ∀ T, -1074 < T → e + f < T → (e' ≤ T ↔ m * n < overflowAt T (e + f)) := by
  have hleast := h.least
  have hsize : 2 ^ 52 ≤ m * n := hfull.trans (Nat.le_mul_of_pos_left n hm)
  have hM : 0 < m * n := by omega
  have hlog : 52 ≤ (m * n).log2 := (Nat.le_log2 hM.ne').mpr hsize
  obtain ⟨k, hk⟩ : ∃ k : ℕ, lastPlace (m * n) (e + f) = e + f + k :=
    ⟨(lastPlace (m * n) (e + f) - (e + f)).toNat, by unfold lastPlace; omega⟩
  have hpos : 0 < m * n / 2 ^ k := by
    by_cases hnormal : -1074 < e + f + k
    · exact lt_of_lt_of_le (by norm_num) ((cut_bounds hM hk).2 hnormal)
    · refine Nat.div_pos (le_trans (Nat.pow_le_pow_right (by norm_num) ?_) hsize) (by positivity)
      omega
  obtain ⟨m', e', h', heq, hcanonical, hunits⟩ := roundWithAccuracy_eq (s * s') hM hk hpos
  refine ⟨m', e', h', heq, hcanonical, fun T hT hfine => ?_⟩
  rw [hcanonical.exponent_le_iff hT.le, hunits, rounded_lt_iff hM hk hT hfine]

/-! ## Positive doubles -/

theorem mul_finite_comm (s s' : UnpackedFloat.Sign) {m n : ℕ} {e f : ℤ} (hm : 0 < m) (hn : 0 < n) :
    UnpackedFloat.mul Format.binary64 (.finite s m e hm) (.finite s' n f hn) =
      UnpackedFloat.mul Format.binary64 (.finite s' n f hn) (.finite s m e hm) := by
  have hsign : s * s' = s' * s := by cases s <;> cases s' <;> rfl
  simp only [UnpackedFloat.mul, hsign, Nat.mul_comm m, Int.add_comm e]

theorem exists_of_isPositive {x : Float} (h : Scalar.isPositive x = true) :
    ∃ m e hm, x.toModel.unpack = .finite .positive m e hm := by
  rw [Scalar.isPositive, Bool.and_eq_true, lt_eq] at h
  obtain ⟨hfin, hlt⟩ := h
  replace hfin : x.toModel.unpack.isFinite = true := hfin
  rw [show (Scalar.zero : Float).toModel.unpack = .zero .positive from rfl] at hlt
  generalize x.toModel.unpack = u at hfin hlt
  rcases u with ⟨_ | _⟩ | _ | s | ⟨_ | _, m, e, hm⟩ <;>
    simp_all [UnpackedFloat.compare, UnpackedFloat.isFinite]

/-- Above zero are the positive infinity and what has a positive sign and a significand. -/
theorem lt_zero_of_unpack {x : Float} (h : x.toModel.unpack = .infinity .positive ∨
    ∃ m e hm, x.toModel.unpack = .finite .positive m e hm) : Scalar.lt Scalar.zero x = true := by
  rw [lt_eq, show (Scalar.zero : Float).toModel.unpack = .zero .positive from rfl]
  rcases h with h | ⟨m, e, hm, h⟩ <;> simp [h, UnpackedFloat.compare]

/-- A positive magnitude that is stored stays above zero, and it stays a number up to the largest
exponent. -/
theorem stored_magnitude {y : Float} {m : ℕ} {e : ℤ} {h : 0 < m} (hc : Canonical m e)
    (hy : y.toModel.unpack = stored (.finite .positive m e h)) :
    Scalar.lt Scalar.zero y = true ∧ (Scalar.isFinite y = true ↔ e ≤ 971) ∧
      (e ≤ 971 → y.toModel.unpack = .finite .positive m e h) := by
  rw [stored, unpack_pack h hc] at hy
  have hfinite : Scalar.isFinite y = y.toModel.unpack.isFinite := rfl
  rw [hfinite]
  split_ifs at hy with hover
  · rw [hy]
    exact ⟨lt_zero_of_unpack (.inl hy), iff_of_false (by decide) hover.not_ge,
      fun hle => absurd hle hover.not_ge⟩
  · rw [hy]
    exact ⟨lt_zero_of_unpack (.inr ⟨m, e, h, hy⟩), iff_of_true rfl (not_lt.mp hover), fun _ => rfl⟩

/-- A double above zero times one of at least one is stored with an exponent that the exact product
determines. -/
theorem unpack_mul_positive {x c : Float} {m n : ℕ} {e f : ℤ} {hm : 0 < m} {hn : 0 < n}
    (hx : x.toModel.unpack = .finite .positive m e hm) (hc : c.toModel.unpack = .finite .positive n f hn)
    (hfull : 2 ^ 52 ≤ n) (hone : -52 ≤ f) :
    ∃ m' e' h', Canonical m' e' ∧ (x * c).toModel.unpack = stored (.finite .positive m' e' h') ∧
      ∀ T, -1074 < T → e + f < T → (e' ≤ T ↔ m * n < overflowAt T (e + f)) := by
  obtain ⟨m', e', h', heq, hcanonical, hle⟩ :=
    mul_spec .positive .positive hm hn (stored_unpack x hx) hfull hone
  refine ⟨m', e', h', hcanonical, ?_, hle⟩
  rw [unpack_mul, hx, hc, heq]
  rfl

theorem mul_comm_positive {x y : Float} {m n : ℕ} {e f : ℤ} {hm : 0 < m} {hn : 0 < n}
    (hx : x.toModel.unpack = .finite .positive m e hm) (hy : y.toModel.unpack = .finite .positive n f hn) :
    x * y = y * x := by
  refine ext_unpack ?_
  rw [unpack_mul, unpack_mul, hx, hy, mul_finite_comm]

/-- The double of a positive number is above zero, and it is a number below the largest exponent. -/
theorem two_mul_positive {s : Float} {m : ℕ} {e : ℤ} {hm : 0 < m}
    (hs : s.toModel.unpack = .finite .positive m e hm) :
    Scalar.lt Scalar.zero (Scalar.two * s) = true ∧
      (Scalar.isFinite (Scalar.two * s) = true ↔ e ≤ 970) := by
  have htwo : (Scalar.two : Float).toModel.unpack = .finite .positive (2 ^ 52) (-51) (by decide) := rfl
  have hcanonical := stored_unpack s hs
  have hle := exponent_le hs
  rw [mul_comm_positive htwo hs]
  obtain ⟨m', e', h', hc', heq, hexponent⟩ := unpack_mul_positive hs htwo le_rfl (by decide)
  obtain ⟨hlt, hfin, -⟩ := stored_magnitude hc' heq
  refine ⟨hlt, ?_⟩
  rw [hfin, hexponent 971 (by decide) (by omega), overflowAt]
  have hbits := hcanonical.lt
  constructor
  · intro hbelow
    by_contra hgt
    have hlargest : (971 - 1 - (e + -51)).toNat = 50 := by omega
    have hfull := hcanonical.full (by omega)
    rw [hlargest] at hbelow
    omega
  · intro hsmall
    have hpow : 2 ^ 51 ≤ 2 ^ (971 - 1 - (e + -51)).toNat := Nat.pow_le_pow_right (by norm_num) (by omega)
    omega

end QubitPulse.Double
