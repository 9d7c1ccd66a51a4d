import QubitPulse.Proofs.Double.Addition

/-!
# Zeros and small integers as doubles

There are two zeros. Adding either of them changes no double but the negative zero, and no sum becomes
the negative zero that was not one before. A finite double times one is finite, times two it is a number
at least. So what is summed of small integers with finite weights does not depend on which of the zeros
stands for zero.
-/
namespace QubitPulse.Double
open Float.Model Float.Model.UnpackedFloat

/-! ## Stored values -/

/-- What is read of a value that is packed into a double. -/
def stored (u : UnpackedFloat) : UnpackedFloat :=
  UnpackedFloat.unpack Format.binary64 (UnpackedFloat.pack Format.binary64 u)

theorem stored_self (x : Float) : stored x.toModel.unpack = x.toModel.unpack :=
  congrArg (UnpackedFloat.unpack Format.binary64) (pack_unpack_of_valid x.toModel.valid)

theorem ext_unpack {x y : Float} (h : x.toModel.unpack = y.toModel.unpack) : x = y := by
  obtain ⟨⟨b, hb⟩⟩ := x
  obtain ⟨⟨b', hb'⟩⟩ := y
  have hbits : b.toBitVec = b'.toBitVec :=
    calc b.toBitVec
        = UnpackedFloat.pack Format.binary64 (UnpackedFloat.unpack Format.binary64 b.toBitVec) :=
          (pack_unpack_of_valid hb).symm
      _ = UnpackedFloat.pack Format.binary64 (UnpackedFloat.unpack Format.binary64 b'.toBitVec) :=
          congrArg (UnpackedFloat.pack Format.binary64) h
      _ = b'.toBitVec := pack_unpack_of_valid hb'
  obtain rfl : b = b' := UInt64.toBitVec_inj.mp hbits
  rfl

theorem unpack_mul (x y : Float) : (x * y).toModel.unpack =
    stored (UnpackedFloat.mul Format.binary64 x.toModel.unpack y.toModel.unpack) :=
  rfl

theorem unpack_sub (x y : Float) : (x - y).toModel.unpack =
    stored (UnpackedFloat.sub Format.binary64 x.toModel.unpack y.toModel.unpack) :=
  rfl

theorem isNaN_ofFields {s : Sign} {exponent : BitVec 11} {mantissa : BitVec 52}
    (h : exponent ≠ -1#11 ∨ mantissa = 0#52) : (ofFields s exponent mantissa).isNaN = false := by
  unfold ofFields
  split_ifs with htop hzero
  · rfl
  · exact absurd h (by simp [htop, hzero])
  all_goals rfl

/-- A number is packed as a number. -/
theorem isNaN_stored {u : UnpackedFloat} (hu : u.isNaN = false) : (stored u).isNaN = false := by
  cases u with
  | notANumber => exact absurd hu (by decide)
  | infinity s => exact congrArg UnpackedFloat.isNaN (unpack_pack_infinity s)
  | zero s => exact congrArg UnpackedFloat.isNaN (unpack_pack_zero s)
  | finite s m e h =>
    unfold stored
    rw [pack_finite]
    split_ifs with hover
    · rw [unpack_packComponents]
      exact isNaN_ofFields (.inr rfl)
    · rw [unpack_packComponents]
      refine isNaN_ofFields (.inl fun htop => ?_)
      have hvalue := congrArg BitVec.toNat htop
      rw [BitVec.toNat_ofNat, show (-1#11).toNat = 2047 from rfl] at hvalue
      omega
    · rw [unpack_packComponents]
      exact isNaN_ofFields (.inl (by decide))

theorem isNaN_roundWithAccuracy (s : Sign) (m : ℕ) (e : ℤ) (accuracy : Accuracy) :
    (roundWithAccuracy Format.binary64 s m e accuracy).isNaN = false := by
  unfold roundWithAccuracy
  dsimp only
  split <;> rfl

theorem isNaN_normalize (m e : ℤ) (s : Sign) :
    (UnpackedFloat.normalize Format.binary64 m e s).isNaN = false := by
  unfold UnpackedFloat.normalize
  split
  · exact isNaN_roundWithAccuracy ..
  · rfl
  · exact isNaN_roundWithAccuracy ..

theorem isNaN_of_isFinite {x : Float} (h : Scalar.isFinite x = true) : Scalar.isNaN x = false := by
  change x.toModel.unpack.isNaN = false
  replace h : x.toModel.unpack.isFinite = true := h
  cases hx : x.toModel.unpack with
  | notANumber => simp [hx, UnpackedFloat.isFinite] at h
  | _ => rfl

/-- A sum of numbers is a number unless both are infinite. -/
theorem isNaN_add {x y : Float} (hx : Scalar.isNaN x = false) (hy : Scalar.isNaN y = false)
    (h : Scalar.isFinite x = true ∨ Scalar.isFinite y = true) : Scalar.isNaN (x + y) = false := by
  refine isNaN_stored ?_
  replace hx : x.toModel.unpack.isNaN = false := hx
  replace hy : y.toModel.unpack.isNaN = false := hy
  replace h : x.toModel.unpack.isFinite = true ∨ y.toModel.unpack.isFinite = true := h
  generalize x.toModel.unpack = u at *
  generalize y.toModel.unpack = v at *
  cases u with
  | notANumber => exact absurd hx (by decide)
  | infinity s =>
    cases v with
    | notANumber => exact absurd hy (by decide)
    | infinity s' => exact absurd h (by simp [UnpackedFloat.isFinite])
    | _ => rfl
  | zero s =>
    cases v with
    | notANumber => exact absurd hy (by decide)
    | zero s' => cases s <;> cases s' <;> rfl
    | _ => rfl
  | finite s m e hm =>
    cases v with
    | notANumber => exact absurd hy (by decide)
    | finite s' m' e' hm' => exact isNaN_normalize ..
    | _ => rfl

/-! ## Zeros -/

/-- A zero of either sign. -/
def Vanishes (x : Float) : Prop := ∃ s, x.toModel.unpack = .zero s

theorem vanishes_iff {x : Float} : Vanishes x ↔ Scalar.eq x Scalar.zero = true := by
  have heq : Scalar.eq x Scalar.zero = (x.toModel.unpack.compare (.zero .positive) == some .eq) := rfl
  rw [heq, Vanishes]
  rcases x.toModel.unpack with ⟨_ | _⟩ | _ | s | ⟨_ | _, m, e, hm⟩ <;> simp [UnpackedFloat.compare]

/-- Every number is equal to itself. -/
theorem eq_self_of_isNaN {x : Float} (h : Scalar.isNaN x = false) : Scalar.eq x x = true := by
  replace h : x.toModel.unpack.isNaN = false := h
  change (x.toModel.unpack.compare x.toModel.unpack == some .eq) = true
  generalize x.toModel.unpack = u at h
  cases u with
  | notANumber => exact absurd h (by decide)
  | infinity s => cases s <;> rfl
  | zero s => rfl
  | finite s m e hm => cases s <;> simp [UnpackedFloat.compare]

theorem ne_negZero_iff {x : Float} : x ≠ -0.0 ↔ x.toModel.unpack ≠ .zero .negative :=
  not_congr ⟨fun h => h ▸ rfl, fun h => ext_unpack h⟩

theorem zero_ne_negZero : (0.0 : Float) ≠ -0.0 := by
  have hzero : (0.0 : Float).toModel.unpack = .zero .positive := rfl
  rw [ne_negZero_iff, hzero]
  exact nofun

theorem Vanishes.isFinite {z : Float} (hz : Vanishes z) : Scalar.isFinite z = true := by
  obtain ⟨s, hz⟩ := hz
  exact congrArg UnpackedFloat.isFinite hz

theorem vanishes_or_of_isFinite {x : Float} (h : Scalar.isFinite x = true) :
    Vanishes x ∨ ∃ s m e hm, x.toModel.unpack = .finite s m e hm := by
  replace h : x.toModel.unpack.isFinite = true := h
  cases hx : x.toModel.unpack with
  | zero s => exact .inl ⟨s, hx⟩
  | finite s m e hm => exact .inr ⟨s, m, e, hm, rfl⟩
  | _ => simp [hx, UnpackedFloat.isFinite] at h

theorem Vanishes.mul_left {x z : Float} (hz : Vanishes z) (hx : Scalar.isFinite x = true) :
    Vanishes (x * z) := by
  obtain ⟨s, hz⟩ := hz
  rw [Vanishes, unpack_mul, hz]
  rcases vanishes_or_of_isFinite hx with ⟨s', hx⟩ | ⟨s', m, e, hm, hx⟩
  · rw [hx]
    exact ⟨_, unpack_pack_zero (s' * s)⟩
  · rw [hx]
    exact ⟨_, unpack_pack_zero (s' * s)⟩

theorem Vanishes.mul_right {x z : Float} (hz : Vanishes z) (hx : Scalar.isFinite x = true) :
    Vanishes (z * x) := by
  obtain ⟨s, hz⟩ := hz
  rw [Vanishes, unpack_mul, hz]
  rcases vanishes_or_of_isFinite hx with ⟨s', hx⟩ | ⟨s', m, e, hm, hx⟩
  · rw [hx]
    exact ⟨_, unpack_pack_zero (s * s')⟩
  · rw [hx]
    exact ⟨_, unpack_pack_zero (s * s')⟩

theorem isNaN_mul {x y : Float} (hx : Scalar.isFinite x = true) (hy : Scalar.isFinite y = true) :
    Scalar.isNaN (x * y) = false := by
  rcases vanishes_or_of_isFinite hx with hx | ⟨s, m, e, hm, hx⟩
  · exact isNaN_of_isFinite (hx.mul_right hy).isFinite
  · rcases vanishes_or_of_isFinite hy with hy | ⟨s', m', e', hm', hy⟩
    · exact isNaN_of_isFinite (hy.mul_left (congrArg UnpackedFloat.isFinite hx)).isFinite
    · refine isNaN_stored ?_
      rw [hx, hy]
      exact isNaN_roundWithAccuracy ..

theorem Vanishes.add {y z : Float} (hy : Vanishes y) (hz : Vanishes z) : Vanishes (y + z) := by
  obtain ⟨s, hy⟩ := hy
  obtain ⟨s', hz⟩ := hz
  rw [Vanishes, unpack_add, hy, hz]
  cases s <;> cases s' <;> exact ⟨_, unpack_pack_zero _⟩

/-- Taking a zero away changes at most the sign of a zero. -/
theorem sub_vanishing {x z : Float} (hz : Vanishes z) :
    x - z = x ∨ Vanishes x ∧ Vanishes (x - z) := by
  obtain ⟨s, hz⟩ := hz
  have hunpack := unpack_sub x z
  rw [hz] at hunpack
  cases hx : x.toModel.unpack with
  | zero s' =>
    refine .inr ⟨⟨s', hx⟩, ?_⟩
    rw [Vanishes, hunpack, hx]
    cases s <;> cases s' <;> exact ⟨_, unpack_pack_zero _⟩
  | _ =>
    refine .inl (ext_unpack ?_)
    rw [hunpack, ← stored_self x]
    refine congrArg stored ?_
    rw [stored_self, hx]
    rfl

/-- Adding a zero changes no double but the negative zero. -/
theorem add_vanishing {x z : Float} (hx : x ≠ -0.0) (hz : Vanishes z) : x + z = x := by
  obtain ⟨s, hz⟩ := hz
  rw [ne_negZero_iff] at hx
  refine ext_unpack ?_
  have hsame : UnpackedFloat.add Format.binary64 x.toModel.unpack (.zero s) = x.toModel.unpack := by
    generalize x.toModel.unpack = u at hx
    cases u with
    | infinity | notANumber | finite => rfl
    | zero s' =>
      obtain rfl : s' = .positive := by cases s' <;> trivial
      cases s <;> rfl
  rw [unpack_add, hz, sum, hsame]
  exact stored_self x

theorem stored_normalize_ne_negZero {m e : ℤ} (he : -1074 ≤ e) :
    stored (UnpackedFloat.normalize Format.binary64 m e .positive) ≠ .zero .negative := by
  have hround : ∀ (s : Sign) {n : ℕ}, 0 < n →
      stored (UnpackedFloat.round Format.binary64 s n e) ≠ .zero .negative := by
    intro s n hn
    obtain ⟨m', e', h, hrounded, hcanonical, -⟩ := round_spec s hn he
    rw [hrounded, stored, unpack_pack h hcanonical]
    split_ifs <;> exact nofun
  unfold UnpackedFloat.normalize
  split
  · next hlt => exact hround _ (by have := Int.compare_eq_lt.mp hlt; omega)
  · exact fun h => nomatch (unpack_pack_zero .positive).symm.trans h
  · next hgt => exact hround _ (by have := Int.compare_eq_gt.mp hgt; omega)

theorem stored_notANumber_ne : stored .notANumber ≠ .zero .negative := by
  have h : stored .notANumber = .notANumber := rfl
  rw [h]
  exact nofun

theorem stored_infinity_ne (s : Sign) : stored (.infinity s) ≠ .zero .negative := by
  rw [stored, unpack_pack_infinity]
  exact nofun

/-- No sum becomes the negative zero that was not one before. -/
theorem add_ne_negZero {x : Float} (hx : x ≠ -0.0) (y : Float) : x + y ≠ -0.0 := by
  by_cases hzero : Vanishes y
  · rwa [add_vanishing hx hzero]
  have hself : stored y.toModel.unpack ≠ .zero .negative := fun h =>
    hzero ⟨.negative, (stored_self y).symm.trans h⟩
  have hleast := fun s m e h (hu : x.toModel.unpack = .finite s m e h) => (stored_unpack x hu).least
  have hleast' := fun s m e h (hv : y.toModel.unpack = .finite s m e h) => (stored_unpack y hv).least
  rw [ne_negZero_iff]
  change stored (UnpackedFloat.add Format.binary64 x.toModel.unpack y.toModel.unpack) ≠ _
  have hzero' : ∀ s, y.toModel.unpack ≠ .zero s := fun s h => hzero ⟨s, h⟩
  clear hx hzero
  generalize x.toModel.unpack = u at *
  generalize y.toModel.unpack = v at *
  cases v with
  | zero s' => exact absurd rfl (hzero' s')
  | notANumber => cases u <;> exact stored_notANumber_ne
  | infinity s' =>
    cases u with
    | notANumber => exact stored_notANumber_ne
    | infinity s =>
      have hsum : UnpackedFloat.add Format.binary64 (.infinity s) (.infinity s') =
          if (s == s') = true then .infinity s else .notANumber := rfl
      rw [hsum]
      split_ifs
      · exact stored_infinity_ne s
      · exact stored_notANumber_ne
    | _ => exact stored_infinity_ne s'
  | finite s' m' e' hm' =>
    cases u with
    | notANumber => exact stored_notANumber_ne
    | infinity s => exact stored_infinity_ne s
    | zero s => exact hself
    | finite s m e hm =>
      have hbelow := hleast s m e hm rfl
      have hbelow' := hleast' s' m' e' hm' rfl
      exact stored_normalize_ne_negZero (by omega)

/-! ## Products with one -/

theorem shiftRight_mul_two_pow (m k : ℕ) :
    (⟨m * 2 ^ k, false, false⟩ : ExtendedMantissa) >>> k = ⟨m, false, false⟩ := by
  change k.repeat ExtendedMantissa.shiftRightOne _ = _
  induction k generalizing m with
  | zero => simp [Nat.repeat]
  | succ k ih =>
    have hsplit : m * 2 ^ (k + 1) = m * 2 * 2 ^ k := by ring
    rw [Nat.repeat, hsplit, ih (m * 2), ExtendedMantissa.shiftRightOne]
    simp

theorem targetExponent_of_canonical {m : ℕ} {e : ℤ} (hc : Canonical m e) :
    Format.binary64.targetExponent (totalExponent m e) = e := by
  have hleast := hc.least
  have hsize : m.log2 < 53 := (Nat.log2_lt hc.pos.ne').mpr hc.lt
  have hfull : -1074 < e → 52 ≤ m.log2 := fun h => (Nat.le_log2 hc.pos.ne').mpr (hc.full h)
  rw [targetExponent_eq, totalExponent]
  omega

theorem totalExponent_mul_two_pow {m : ℕ} (hm : 0 < m) (k : ℕ) (e : ℤ) :
    totalExponent (m * 2 ^ k) (e - k) = totalExponent m e := by
  have hlog : (m * 2 ^ k).log2 = m.log2 + k := by
    rw [← Nat.shiftLeft_eq, log2_shiftLeft hm]
  rw [totalExponent, totalExponent, hlog]
  omega

/-- A stored magnitude that is counted in a finer unit is rounded to itself. -/
theorem roundWithAccuracy_canonical (s : Sign) {m : ℕ} {e : ℤ} (h : 0 < m) (hc : Canonical m e) (k : ℕ) :
    roundWithAccuracy Format.binary64 s (m * 2 ^ k) (e - k) .exact = .finite s m e h := by
  have htarget := targetExponent_of_canonical hc
  have hfirst : shiftToTargetExponent Format.binary64 (m * 2 ^ k) (e - k) .exact =
      (⟨m, false, false⟩, e) := by
    have hshift : (e - (e - (k : ℤ))).toNat = k := by omega
    have hback : e - (k : ℤ) + (k : ℤ) = e := by omega
    rw [shiftToTargetExponent, totalExponent_mul_two_pow h, htarget, shiftToExponent, hshift, hback]
    exact congrArg (·, e) (shiftRight_mul_two_pow m k)
  have hsecond : shiftToTargetExponent Format.binary64 m e .exact = (⟨m, false, false⟩, e) := by
    rw [shiftToTargetExponent, htarget, shiftToExponent_exact m e e le_rfl]
  have hrounded : ExtendedMantissa.roundedMantissa ⟨m, false, false⟩ = m := rfl
  simp only [roundWithAccuracy, hfirst, hrounded, hsecond]
  rw [dif_neg h.ne']

/-- A stored magnitude times one is rounded to itself. -/
theorem mul_one_unpacked (s s' : Sign) {m : ℕ} {e : ℤ} (h : 0 < m) (hc : Canonical m e) :
    UnpackedFloat.mul Format.binary64 (.finite s m e h) (.finite s' (2 ^ 52) (-52) (by decide)) =
      .finite (s * s') m e h :=
  roundWithAccuracy_canonical (s * s') h hc 52

theorem exponent_le {c : Float} {s : Sign} {m : ℕ} {e : ℤ} {h : 0 < m}
    (hc : c.toModel.unpack = .finite s m e h) : e ≤ 971 := by
  by_contra hover
  have hself := stored_self c
  rw [hc] at hself
  have := unpack_pack (s := s) h (stored_unpack c hc)
  rw [if_pos (by omega)] at this
  exact nomatch hself.symm.trans this

theorem isFinite_mul_unit {c u : Float} (hc : Scalar.isFinite c = true) (hu : u = 1.0 ∨ u = -1.0) :
    Scalar.isFinite (c * u) = true := by
  change (c * u).toModel.unpack.isFinite = true
  have hfin : c.toModel.unpack.isFinite = true := hc
  obtain ⟨s', hu⟩ : ∃ s', u.toModel.unpack = .finite s' (2 ^ 52) (-52) (by decide) := by
    rcases hu with rfl | rfl
    · exact ⟨.positive, rfl⟩
    · exact ⟨.negative, rfl⟩
  rw [unpack_mul, hu]
  cases hvalue : c.toModel.unpack with
  | infinity | notANumber => simp [hvalue, UnpackedFloat.isFinite] at hfin
  | zero s =>
    exact congrArg UnpackedFloat.isFinite (unpack_pack_zero (s * s'))
  | finite s m e h =>
    have hcanonical := stored_unpack c hvalue
    rw [mul_one_unpacked s s' h hcanonical, stored, unpack_pack h hcanonical,
      if_neg (exponent_le hvalue).not_gt]
    rfl

/-! ## Small integers -/

/-- Small integers, each with a double that stands for it. -/
def digits : List (Float × ℤ) := [(0.0, 0), (-0.0, 0), (1.0, 1), (-1.0, -1), (2.0, 2), (-2.0, -2)]

/-- Sums, differences and products of small integers that are small are exact. -/
theorem digits_closed : ∀ p ∈ digits, ∀ q ∈ digits,
    ((p.2 + q.2).natAbs ≤ 2 → ∃ r ∈ digits, r = (p.1 + q.1, p.2 + q.2)) ∧
    ((p.2 - q.2).natAbs ≤ 2 → ∃ r ∈ digits, r = (p.1 - q.1, p.2 - q.2)) ∧
    ((p.2 * q.2).natAbs ≤ 2 → ∃ r ∈ digits, r = (p.1 * q.1, p.2 * q.2)) := by
  decide +kernel

theorem digits_spec : ∀ p ∈ digits, (∃ r ∈ digits, r = (-p.1, -p.2)) ∧
    Scalar.isFinite p.1 = true ∧
    (p.2 = 0 ∧ Scalar.eq p.1 Scalar.zero = true ∨ p.2 ≠ 0 ∧ p.1 = Float.ofInt p.2) := by
  decide +kernel

/-- The double stands for the integer. -/
def Reads (x : Float) (k : ℤ) : Prop := (x, k) ∈ digits

namespace Reads

variable {x y : Float} {k l : ℤ}

theorem add (hx : Reads x k) (hy : Reads y l) (h : (k + l).natAbs ≤ 2) : Reads (x + y) (k + l) := by
  obtain ⟨_, hsum, rfl⟩ := (digits_closed (x, k) hx (y, l) hy).1 h
  exact hsum

theorem sub (hx : Reads x k) (hy : Reads y l) (h : (k - l).natAbs ≤ 2) : Reads (x - y) (k - l) := by
  obtain ⟨_, hdifference, rfl⟩ := (digits_closed (x, k) hx (y, l) hy).2.1 h
  exact hdifference

theorem mul (hx : Reads x k) (hy : Reads y l) (h : (k * l).natAbs ≤ 2) : Reads (x * y) (k * l) := by
  obtain ⟨_, hproduct, rfl⟩ := (digits_closed (x, k) hx (y, l) hy).2.2 h
  exact hproduct

theorem zero : Reads (Scalar.zero : Float) 0 := List.mem_of_getElem? (i := 0) rfl

theorem one : Reads (Scalar.one : Float) 1 := List.mem_of_getElem? (i := 2) rfl

theorem neg (h : Reads x k) : Reads (-x) (-k) := by
  obtain ⟨⟨_, hneg, rfl⟩, -⟩ := digits_spec (x, k) h
  exact hneg

theorem isFinite (h : Reads x k) : Scalar.isFinite x = true := (digits_spec (x, k) h).2.1

/-- What stands for zero is a zero, and any other integer has one double. -/
theorem vanishes_or_eq (h : Reads x k) : k = 0 ∧ Vanishes x ∨ k ≠ 0 ∧ x = Float.ofInt k := by
  rw [vanishes_iff]
  exact (digits_spec (x, k) h).2.2

theorem vanishes (h : Reads x 0) : Vanishes x := by
  rcases h.vanishes_or_eq with ⟨-, hzero⟩ | ⟨hne, -⟩
  · exact hzero
  · exact absurd rfl hne

end Reads

theorem vanishes_ofInt_zero : Vanishes (Float.ofInt 0) := ⟨.positive, rfl⟩

theorem isFinite_ofInt {x : Float} {k : ℤ} (h : Reads x k) : Scalar.isFinite (Float.ofInt k) = true := by
  rcases h.vanishes_or_eq with ⟨rfl, -⟩ | ⟨-, rfl⟩
  · exact vanishes_ofInt_zero.isFinite
  · exact h.isFinite

theorem add_mul_ofInt_zero {total c : Float} (htotal : total ≠ -0.0) (hc : Scalar.isFinite c = true) :
    total + c * Float.ofInt 0 = total :=
  add_vanishing htotal (vanishes_ofInt_zero.mul_left hc)

/-- A weighted integer adds the same whichever double stands for it. -/
theorem add_weighted {total c x z : Float} {k : ℤ} (htotal : total ≠ -0.0)
    (hc : Scalar.isFinite c = true) (hx : Reads x k) (hz : Vanishes z) :
    total + (c * x - z) = total + c * Float.ofInt k := by
  have hproduct : total + c * x = total + c * Float.ofInt k := by
    rcases hx.vanishes_or_eq with ⟨rfl, hzero⟩ | ⟨-, rfl⟩
    · rw [add_vanishing htotal (hzero.mul_left hc), add_mul_ofInt_zero htotal hc]
    · rfl
  rcases sub_vanishing (x := c * x) hz with h | ⟨h, h'⟩
  · rw [h, hproduct]
  · rw [← hproduct, add_vanishing htotal h, add_vanishing htotal h']

/-- A weighted integer of at most one is finite. -/
theorem isFinite_mul_ofInt {c : Float} {k : ℤ} (hc : Scalar.isFinite c = true) (hk : k.natAbs ≤ 1) :
    Scalar.isFinite (c * Float.ofInt k) = true := by
  have heq : ∀ {u : Float} {k : ℤ}, Reads u k → k ≠ 0 → Float.ofInt k = u := fun hu hne =>
    (hu.vanishes_or_eq.resolve_left fun h => hne h.1).2.symm
  obtain rfl | rfl | rfl : k = 0 ∨ k = 1 ∨ k = -1 := by omega
  · exact (vanishes_ofInt_zero.mul_left hc).isFinite
  · exact isFinite_mul_unit hc (.inl (heq .one one_ne_zero))
  · exact isFinite_mul_unit hc (.inr (heq (.neg .one) (by decide)))

end QubitPulse.Double
