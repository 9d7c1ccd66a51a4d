import QubitPulse.Proofs.Double.SmallIntegers

/-!
# Magnitudes of doubles

A sum of doubles that are not below zero has the magnitude of each of its summands at least, and the difference
of two finite doubles in order is not below zero. The whole part of such a double reaches a power of two just if
its magnitude does.
-/
namespace QubitPulse.Double
open Float.Model Float.Model.UnpackedFloat

/-! ## Sums -/

theorem add_comm_unpacked (x y : UnpackedFloat) :
    UnpackedFloat.add Format.binary64 x y = UnpackedFloat.add Format.binary64 y x := by
  rcases x with ⟨_ | _⟩ | _ | ⟨_ | _⟩ | ⟨s, m, e, hm⟩ <;>
    rcases y with ⟨_ | _⟩ | _ | ⟨_ | _⟩ | ⟨s', m', e', hm'⟩ <;> try rfl
  simp only [UnpackedFloat.add, min_comm e, Int.add_comm]

theorem add_spec {x y : Float} (hx : Nonnegative x.toModel.unpack) (hy : Nonnegative y.toModel.unpack) :
    Nonnegative (x + y).toModel.unpack ∧
      magnitude x.toModel.unpack ≤ magnitude (x + y).toModel.unpack ∧
      magnitude y.toModel.unpack ≤ magnitude (x + y).toModel.unpack := by
  obtain ⟨hadd, hstored, hfirst⟩ := add_nonnegative hx hy (stored_unpack x) (stored_unpack y)
  obtain ⟨-, -, hsecond⟩ := add_nonnegative hy hx (stored_unpack y) (stored_unpack x)
  rw [add_comm_unpacked] at hsecond
  obtain ⟨hsum, hle⟩ := unpack_pack_nonnegative hadd hstored
  exact ⟨hsum, hfirst.trans hle, hsecond.trans hle⟩

/-- A running sum of doubles not below zero is not less than any of them. -/
theorem foldl_add_spec {ds : List Float} {start : Float} (hstart : Nonnegative start.toModel.unpack)
    (hds : ∀ d ∈ ds, Nonnegative d.toModel.unpack) :
    Nonnegative (ds.foldl (· + ·) start).toModel.unpack ∧
      magnitude start.toModel.unpack ≤ magnitude (ds.foldl (· + ·) start).toModel.unpack ∧
      ∀ d ∈ ds, magnitude d.toModel.unpack ≤ magnitude (ds.foldl (· + ·) start).toModel.unpack := by
  induction ds generalizing start with
  | nil => exact ⟨hstart, le_rfl, List.forall_mem_nil _⟩
  | cons d ds ih =>
    obtain ⟨hd, hds⟩ := List.forall_mem_cons.mp hds
    obtain ⟨hnext, hfirst, hsecond⟩ := add_spec hstart hd
    obtain ⟨hsum, hle, hmem⟩ := ih hnext hds
    exact ⟨hsum, hfirst.trans hle, List.forall_mem_cons.mpr ⟨hsecond.trans hle, hmem⟩⟩

theorem sum_nonnegative {ds : List Float} (hds : ∀ d ∈ ds, Nonnegative d.toModel.unpack) :
    Nonnegative (Scalar.sum ds).toModel.unpack ∧
      ∀ d ∈ ds, magnitude d.toModel.unpack ≤ magnitude (Scalar.sum ds).toModel.unpack := by
  obtain ⟨hsum, -, hle⟩ := @foldl_add_spec ds Scalar.sumUnit trivial hds
  exact ⟨hsum, hle⟩

/-! ## Differences -/

theorem normalize_nonnegative {m e : ℤ} (hm : 0 ≤ m) (he : -1074 ≤ e) :
    Nonnegative (UnpackedFloat.normalize Format.binary64 m e .positive) ∧
      Stored (UnpackedFloat.normalize Format.binary64 m e .positive) := by
  lift m to ℕ using hm
  rcases m.eq_zero_or_pos with rfl | hpos
  · exact ⟨trivial, Stored.zero _⟩
  · obtain ⟨n, f, hn, heq, hc, -⟩ := normalize_spec hpos he
    rw [heq]
    exact ⟨trivial, Stored.finite hc⟩

/-- What is not less by its exponent and its significand is not less in magnitude. -/
theorem units_le_of_compare {m m' : ℕ} {e e' : ℤ} (h : Canonical m e) (h' : Canonical m' e')
    (hle : (compare e e').then (compare m m') ≠ .lt) : units m' e' ≤ units m e := by
  by_contra hlt
  refine hle ?_
  rw [Ordering.then_eq_lt, compare_lt_iff_lt, compare_eq_iff_eq, compare_lt_iff_lt]
  by_contra hlex
  rcases eq_or_ne e e' with rfl | hne
  · exact hlt (Nat.mul_le_mul_right _ (by omega))
  · exact hlt (units_lt_of_lt h' h (.inl (by omega))).le

/-- The larger of two finite numbers less the smaller is not below zero. -/
theorem sub_nonnegative {x y : UnpackedFloat} (hxfin : x.isFinite = true) (hyfin : y.isFinite = true)
    (hx : Stored x) (hy : Stored y) (hle : x.compare y ≠ some .lt) :
    Nonnegative (UnpackedFloat.sub Format.binary64 x y) ∧
      Stored (UnpackedFloat.sub Format.binary64 x y) := by
  rcases x with ⟨_ | _⟩ | _ | s | ⟨s, m, e, hm⟩ <;>
    rcases y with ⟨_ | _⟩ | _ | s' | ⟨s', m', e', hm'⟩ <;>
    simp only [UnpackedFloat.isFinite, reduceCtorEq] at hxfin hyfin
  case zero.zero => cases s <;> cases s' <;> exact ⟨trivial, Stored.zero _⟩
  case zero.finite =>
    cases s' with
    | positive => exact absurd rfl hle
    | negative => exact ⟨trivial, Stored.finite (hy rfl)⟩
  case finite.zero =>
    cases s with
    | positive => exact ⟨trivial, hx⟩
    | negative => exact absurd rfl hle
  case finite.finite =>
    have hc := hx rfl
    have hc' := hy rfl
    have hleast : -1074 ≤ min e e' := le_min hc.least hc'.least
    refine normalize_nonnegative ?_ hleast
    have hsame := units_shiftLeft m (min_le_left e e') hleast
    have hsame' := units_shiftLeft m' (min_le_right e e') hleast
    change 0 ≤ s.apply ((m <<< (e - min e e').toNat : ℕ) : ℤ) -
      s'.apply ((m' <<< (e' - min e e').toNat : ℕ) : ℤ)
    -- In the common unit the order of the magnitudes is the order of the significands.
    generalize m <<< (e - min e e').toNat = a at hsame ⊢
    generalize m' <<< (e' - min e e').toNat = b at hsame' ⊢
    cases s with
    | positive =>
      cases s' with
      | positive =>
        have hunits := units_le_of_compare hc hc' fun h => hle (congrArg some h)
        rw [← hsame, ← hsame'] at hunits
        have hba : b ≤ a := Nat.le_of_mul_le_mul_right hunits (by positivity)
        simp only [Sign.apply]
        omega
      | negative => simp only [Sign.apply]; omega
    | negative =>
      cases s' with
      | positive => exact absurd rfl hle
      | negative =>
        have hswap : ((compare e e').then (compare m m')).swap = (compare e' e).then (compare m' m) := by
          rw [Ordering.swap_then, ← Std.OrientedCmp.eq_swap, ← Std.OrientedCmp.eq_swap]
        have hunits := units_le_of_compare hc' hc fun h => hle (congrArg some (hswap.trans h))
        rw [← hsame, ← hsame'] at hunits
        have hab : a ≤ b := Nat.le_of_mul_le_mul_right hunits (by positivity)
        simp only [Sign.apply]
        omega

/-! ## Order -/

/-- What is less in magnitude is less. -/
theorem compare_lt_of_magnitude {x y : UnpackedFloat} (hx₀ : Nonnegative x) (hy₀ : Nonnegative y)
    (hx : Stored x) (hy : Stored y) (hlt : magnitude x < magnitude y) : x.compare y = some .lt := by
  rcases x with ⟨_ | _⟩ | _ | s | ⟨_ | _, m, e, hm⟩ <;>
    rcases y with ⟨_ | _⟩ | _ | s' | ⟨_ | _, m', e', hm'⟩ <;>
    simp only [Nonnegative] at hx₀ hy₀
  case finite.positive.finite.positive =>
    by_contra hne
    have hle := units_le_of_compare (hx rfl) (hy rfl) fun h => hne (congrArg some h)
    exact (Nat.cast_lt.mp hlt).not_ge hle
  case zero.zero | finite.positive.zero => exact absurd hlt not_lt_bot
  case infinity.positive.infinity.positive | infinity.positive.zero | infinity.positive.finite.positive =>
    exact absurd hlt not_top_lt
  all_goals rfl

theorem exists_compare {x y : UnpackedFloat} (hx : Nonnegative x) (hy : Nonnegative y) :
    ∃ o, x.compare y = some o := by
  rcases x with ⟨_ | _⟩ | _ | s | ⟨_ | _, m, e, hm⟩ <;>
    rcases y with ⟨_ | _⟩ | _ | s' | ⟨_ | _, m', e', hm'⟩ <;>
    simp only [Nonnegative] at hx hy <;> exact ⟨_, rfl⟩

theorem compare_swap (x y : UnpackedFloat) : (x.compare y).map .swap = y.compare x := by
  rcases x with ⟨_ | _⟩ | _ | s | ⟨_ | _, m, e, hm⟩ <;>
    rcases y with ⟨_ | _⟩ | _ | s' | ⟨_ | _, m', e', hm'⟩ <;>
    try rfl
  all_goals
    simp only [UnpackedFloat.compare, Option.map_some, Ordering.swap_then, ← Std.OrientedCmp.eq_swap]

section Comparison

variable {x y : Float} (hx : Nonnegative x.toModel.unpack) (hy : Nonnegative y.toModel.unpack)
include hx hy

/-- Doubles that are not below zero are ordered by their magnitudes. -/
theorem lt_iff_magnitude : x < y ↔ magnitude x.toModel.unpack < magnitude y.toModel.unpack := by
  have hcompare : x < y ↔ Scalar.lt x y = true := decide_eq_true_iff.symm
  rw [hcompare, lt_eq, decide_eq_true_iff]
  refine ⟨fun h => ?_, compare_lt_of_magnitude hx hy (stored_unpack x) (stored_unpack y)⟩
  by_contra hle
  exact compare_ne_lt_of_magnitude hy hx (stored_unpack y) (stored_unpack x) (not_lt.mp hle) h

theorem le_iff_magnitude : x ≤ y ↔ magnitude x.toModel.unpack ≤ magnitude y.toModel.unpack := by
  have hcompare : y < x ↔ Scalar.lt y x = true := decide_eq_true_iff.symm
  have hcompare' : x ≤ y ↔ Scalar.le x y = true := decide_eq_true_iff.symm
  obtain ⟨o, ho⟩ := exists_compare hy hx
  rw [lt_eq, decide_eq_true_iff, ho, Option.some.injEq] at hcompare
  rw [← not_lt, ← lt_iff_magnitude hy hx, hcompare, hcompare', le_eq, ← compare_swap, ho]
  cases o <;> decide

end Comparison

/-! ## Whole parts -/

/-- The whole part of a number is its magnitude in units of one, without the rest. -/
theorem roundToInt_positive (m : ℕ) {e : ℤ} (he : -1074 ≤ e) :
    roundToInt .positive m e = (units m e / 2 ^ 1074 : ℕ) := by
  simp only [roundToInt, decreaseExponent, Sign.apply, mantissa_shiftToExponent, Nat.shiftLeft_eq, units]
  congr 1
  rcases le_or_gt 0 e with hpos | hneg
  · have hexp : (e + 1074).toNat = (e - 0).toNat + 1074 := by omega
    have hwhole : (0 - (e - ((e - 0).toNat : ℤ))).toNat = 0 := by omega
    rw [hwhole, hexp, pow_add, ← mul_assoc, Nat.mul_div_cancel _ (by positivity), pow_zero, Nat.div_one]
  · have hshift : (e - 0).toNat = 0 := by omega
    have hone : 2 ^ 1074 = 2 ^ (0 - (e - ((0 : ℕ) : ℤ))).toNat * 2 ^ (e + 1074).toNat := by
      rw [← pow_add]
      congr 1
      omega
    rw [hshift, pow_zero, mul_one, hone, Nat.mul_div_mul_right _ _ (by positivity)]

theorem toNat_ofNatClamp (n : ℕ) : (UInt64.ofNatClamp n).toNat = min n (2 ^ 64 - 1) := by
  have hsize : UInt64.size = 2 ^ 64 := rfl
  unfold UInt64.ofNatClamp
  split_ifs <;> rw [UInt64.toNat_ofNatLT] <;> omega

theorem floorNat_eq (x : Float) : floorNat x =
    min (UnpackedFloat.toInt 0 (2 ^ 64 - 1) x.toModel.unpack).toNat (2 ^ 64 - 1) :=
  toNat_ofNatClamp _

/-- A word has room for the powers of two below its own: the whole part reaches one if the number does. -/
theorem two_pow_le_floorNat_iff {x : Float} (hx : Nonnegative x.toModel.unpack) {j : ℕ} (hj : j < 64) :
    2 ^ j ≤ floorNat x ↔ (2 ^ (j + 1074) : ℕ) ≤ magnitude x.toModel.unpack := by
  have hword : 2 ^ j ≤ 2 ^ 64 - 1 :=
    (Nat.pow_le_pow_right (by norm_num) (Nat.le_of_lt_succ hj)).trans (by norm_num)
  have hstored : Stored x.toModel.unpack := stored_unpack x
  rw [floorNat_eq, le_min_iff, and_iff_left hword]
  generalize x.toModel.unpack = u at hx hstored
  rcases u with ⟨_ | _⟩ | _ | s | ⟨_ | _, m, e, hm⟩ <;> simp only [Nonnegative] at hx
  case infinity.positive => exact iff_of_true hword le_top
  case zero =>
    refine iff_of_false (by simp [UnpackedFloat.toInt]) ?_
    rw [magnitude, ← Nat.cast_zero, Nat.cast_le]
    exact Nat.not_le.mpr (by positivity)
  case finite.positive =>
    rw [magnitude, Nat.cast_le, UnpackedFloat.toInt, roundToInt_positive m (hstored rfl).least,
      Int.toNat_natCast, Nat.le_div_iff_mul_le (by positivity), pow_add]

theorem floorNat_le_ceilNat (x : Float) : floorNat x ≤ ceilNat x := by
  unfold ceilNat floorNat
  dsimp only
  split_ifs <;> omega

end QubitPulse.Double
