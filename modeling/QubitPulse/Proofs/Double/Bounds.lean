import QubitPulse.Proofs.Double.Division

/-!
# Doubles between powers of two

What is computed from doubles lies between powers of two that its operands determine, up to a factor of four for
each rounding. Magnitudes are counted in units of the least positive double, of which `2 ^ 1074` make one.
-/
namespace QubitPulse.Double
open Float.Model Float.Model.UnpackedFloat

/-- A number of at most `2 ^ t` units. -/
def AtMost (x : Float) (t : ℕ) : Prop := magnitude x.toModel.unpack ≤ (2 ^ t : ℕ)

/-- At least `2 ^ t` units. -/
def AtLeast (x : Float) (t : ℕ) : Prop := (2 ^ t : ℕ) ≤ magnitude x.toModel.unpack

/-! ## Binary places -/

/-- The first place of a magnitude, counted from that of the unit. -/
def firstPlace (m : ℕ) (e : ℤ) : ℤ := m.log2 + e + 1074

theorem le_firstPlace_iff {m t : ℕ} {e : ℤ} (hm : 0 < m) (he : -1074 ≤ e) :
    t ≤ firstPlace m e ↔ 2 ^ t ≤ units m e := by
  obtain ⟨hlow, hhigh⟩ := (Nat.log2_eq_iff hm.ne').mp rfl
  unfold firstPlace units
  constructor
  · intro h
    calc 2 ^ t ≤ 2 ^ (m.log2 + (e + 1074).toNat) := Nat.pow_le_pow_right (by norm_num) (by omega)
      _ = 2 ^ m.log2 * 2 ^ (e + 1074).toNat := pow_add _ _ _
      _ ≤ m * 2 ^ (e + 1074).toNat := Nat.mul_le_mul_right _ hlow
  · intro h
    have hpow : 2 ^ t < 2 ^ (m.log2 + 1 + (e + 1074).toNat) := by
      rw [pow_add]
      exact h.trans_lt (Nat.mul_lt_mul_of_pos_right hhigh (by positivity))
    have := (Nat.pow_lt_pow_iff_right (by norm_num)).mp hpow
    omega

theorem firstPlace_le {m t : ℕ} {e : ℤ} (hm : 0 < m) (he : -1074 ≤ e) (h : units m e ≤ 2 ^ t) :
    firstPlace m e ≤ t := by
  by_contra hgt
  have hnext : 2 ^ (t + 1) ≤ units m e := (le_firstPlace_iff hm he).mp (by push_cast; omega)
  have hdouble : 2 ^ t < 2 ^ (t + 1) := Nat.pow_lt_pow_right (by norm_num) (Nat.lt_succ_self t)
  omega

/-- A rounded magnitude is at most the power of two above it. -/
theorem magnitude_round_le {s : Sign} {M t : ℕ} {E : ℤ} {accuracy : Accuracy} {q : UnpackedFloat}
    (hplaces : -1074 < E → 2 ^ 52 ≤ M) (hq : roundWithAccuracy Format.binary64 s M E accuracy = q)
    (h : firstPlace M E < t) : Stored q ∧ magnitude q ≤ (2 ^ t : ℕ) := by
  obtain ⟨k, r, hk, -, -, hr, hstored, hmagnitude, -⟩ := exists_rounded hplaces hq
  refine ⟨hstored, hmagnitude ▸ Nat.cast_le.mpr ?_⟩
  unfold lastPlace at hk
  unfold firstPlace at h
  have hcut : M / 2 ^ k < 2 ^ (t - (E + k + 1074).toNat) := by
    rw [Nat.div_lt_iff_lt_mul (by positivity), ← pow_add]
    exact Nat.lt_log2_self.trans_le (Nat.pow_le_pow_right (by norm_num) (by omega))
  calc units r (E + k) ≤ 2 ^ (t - (E + k + 1074).toNat) * 2 ^ (E + k + 1074).toNat :=
        Nat.mul_le_mul_right _ (by omega)
    _ = 2 ^ t := by
      rw [← pow_add]
      congr 1
      omega

/-- A rounded magnitude reaches the power of two below it. -/
theorem le_magnitude_round {s : Sign} {M t : ℕ} {E : ℤ} {accuracy : Accuracy} {q : UnpackedFloat}
    (hM : 0 < M) (hplaces : -1074 < E → 2 ^ 52 ≤ M)
    (hq : roundWithAccuracy Format.binary64 s M E accuracy = q) (h : t ≤ firstPlace M E) :
    Stored q ∧ (2 ^ t : ℕ) ≤ magnitude q := by
  obtain ⟨k, r, hk, -, hr, -, hstored, hmagnitude, -⟩ := exists_rounded hplaces hq
  refine ⟨hstored, hmagnitude ▸ Nat.cast_le.mpr ?_⟩
  unfold lastPlace at hk
  unfold firstPlace at h
  have hcut : 2 ^ (M.log2 - k) ≤ M / 2 ^ k := by
    rw [Nat.le_div_iff_mul_le (by positivity), ← pow_add]
    exact (Nat.pow_le_pow_right (by norm_num) (by omega)).trans (Nat.log2_self_le hM.ne')
  calc 2 ^ t ≤ 2 ^ (M.log2 - k + (E + k + 1074).toNat) :=
        Nat.pow_le_pow_right (by norm_num) (by omega)
    _ = 2 ^ (M.log2 - k) * 2 ^ (E + k + 1074).toNat := pow_add _ _ _
    _ ≤ units r (E + k) := Nat.mul_le_mul_right _ (hcut.trans hr)

/-! ## Stored results -/

theorem le_magnitude_stored {u : UnpackedFloat} (hs : Stored u) : magnitude u ≤ magnitude (stored u) := by
  cases u with
  | zero s => rw [stored, unpack_pack_zero]
  | infinity s => rw [stored, unpack_pack_infinity]
  | notANumber => exact le_rfl
  | finite s m e hm =>
    rw [stored, unpack_pack hm (hs rfl)]
    split_ifs
    · exact le_top
    · exact le_rfl

theorem two_pow_lt_range {t : ℕ} (ht : t < 2098) : 2 ^ t < units (2 ^ 53) 971 := by
  rw [units, ← pow_add]
  exact Nat.pow_lt_pow_right (by norm_num) (by omega)

/-- A number that is bounded is a zero, or has a first place below the bound. -/
theorem AtMost.cases {x : Float} {t : ℕ} (h : AtMost x t) :
    Vanishes x ∨ ∃ s m e hm, x.toModel.unpack = .finite s m e hm ∧ Canonical m e ∧ firstPlace m e ≤ t := by
  have hstored : Stored x.toModel.unpack := stored_unpack x
  unfold AtMost at h
  unfold Vanishes
  generalize x.toModel.unpack = u at h hstored
  cases u with
  | zero s => exact .inl ⟨s, rfl⟩
  | infinity s => exact absurd h (by simp [magnitude])
  | notANumber => exact absurd h (by simp [magnitude])
  | finite s m e hm =>
    refine .inr ⟨s, m, e, hm, rfl, hstored rfl, ?_⟩
    rw [magnitude, Nat.cast_le] at h
    exact firstPlace_le hm (hstored rfl).least h

theorem Vanishes.atMost {x : Float} (h : Vanishes x) (t : ℕ) : AtMost x t := by
  obtain ⟨s, h⟩ := h
  rw [AtMost, h]
  exact bot_le

theorem AtMost.mono {x : Float} {t v : ℕ} (h : AtMost x t) (htv : t ≤ v) : AtMost x v :=
  h.trans (Nat.cast_le.mpr (Nat.pow_le_pow_right (by norm_num) htv))

theorem AtMost.isFinite {x : Float} {t : ℕ} (h : AtMost x t) : Scalar.isFinite x = true := by
  rcases h.cases with h | ⟨s, m, e, hm, h, -⟩
  · exact h.isFinite
  · exact congrArg UnpackedFloat.isFinite h

theorem AtLeast.not_vanishes {x : Float} {t : ℕ} (h : AtLeast x t) : ¬Vanishes x := by
  rintro ⟨s, hzero⟩
  rw [AtLeast, hzero, magnitude, ← Nat.cast_zero, Nat.cast_le] at h
  exact absurd h (Nat.not_le.mpr (by positivity))

theorem AtLeast.finite {x : Float} {t u : ℕ} (h : AtLeast x t) (hmost : AtMost x u) :
    ∃ s m e hm, x.toModel.unpack = .finite s m e hm ∧ Canonical m e ∧ t ≤ firstPlace m e ∧
      firstPlace m e ≤ u := by
  rcases hmost.cases with hzero | ⟨s, m, e, hm, hx, hc, hplace⟩
  · exact absurd hzero h.not_vanishes
  · rw [AtLeast, hx, magnitude, Nat.cast_le] at h
    exact ⟨s, m, e, hm, hx, hc, (le_firstPlace_iff hm hc.least).mpr h, hplace⟩

/-- A number above zero lies between two powers of two in a row. -/
theorem AtMost.exists_binade {x : Float} {t : ℕ} (h : AtMost x t) (hpos : ¬Vanishes x) :
    ∃ l, AtLeast x l ∧ AtMost x (l + 1) ∧ (∀ v, AtLeast x v → v ≤ l) ∧ ∀ v, AtMost x v → l ≤ v := by
  rcases h.cases with hzero | ⟨s, m, e, hm, hx, hc, hplace⟩
  · exact absurd hzero hpos
  obtain ⟨l, hl⟩ : ∃ l : ℕ, firstPlace m e = l := by
    have hleast := hc.least
    exact ⟨(firstPlace m e).toNat, by unfold firstPlace; omega⟩
  have hiff : ∀ v : ℕ, v ≤ l ↔ 2 ^ v ≤ units m e := fun v => by
    rw [← le_firstPlace_iff hm hc.least, hl, Nat.cast_le]
  simp only [AtLeast, AtMost, hx, magnitude, Nat.cast_le]
  refine ⟨l, (hiff l).mp le_rfl, ?_, fun v => (hiff v).mpr, fun v hv => ?_⟩
  · exact (not_le.mp (mt (hiff (l + 1)).mpr (by omega))).le
  · have := firstPlace_le hm hc.least hv
    omega

/-- What is bounded before it is stored is bounded after, within the range. -/
theorem atMost_of_stored {x : Float} {u : UnpackedFloat} {v : ℕ} (hx : x.toModel.unpack = stored u)
    (hu : Stored u ∧ magnitude u ≤ (2 ^ v : ℕ)) (hv : v < 2098) : AtMost x v := by
  rw [AtMost, hx]
  exact magnitude_stored_le hu.1 (two_pow_lt_range hv) hu.2

theorem atLeast_of_stored {x : Float} {u : UnpackedFloat} {v : ℕ} (hx : x.toModel.unpack = stored u)
    (hu : Stored u ∧ (2 ^ v : ℕ) ≤ magnitude u) : AtLeast x v := by
  rw [AtLeast, hx]
  exact hu.2.trans (le_magnitude_stored hu.1)

/-! ## Products -/

theorem log2_mul_bounds {m n : ℕ} (hm : 0 < m) (hn : 0 < n) :
    m.log2 + n.log2 ≤ (m * n).log2 ∧ (m * n).log2 ≤ m.log2 + n.log2 + 1 := by
  obtain ⟨hlow, hhigh⟩ := (Nat.log2_eq_iff hm.ne').mp rfl
  obtain ⟨hlow', hhigh'⟩ := (Nat.log2_eq_iff hn.ne').mp rfl
  constructor
  · rw [Nat.le_log2 (Nat.mul_pos hm hn).ne', pow_add]
    exact Nat.mul_le_mul hlow hlow'
  · rw [← Nat.lt_succ_iff, Nat.log2_lt (Nat.mul_pos hm hn).ne']
    calc m * n < 2 ^ (m.log2 + 1) * 2 ^ (n.log2 + 1) := Nat.mul_lt_mul'' hhigh hhigh'
      _ = 2 ^ (m.log2 + n.log2 + 1).succ := by
        rw [← pow_add]
        congr 1
        omega

/-- A product of stored magnitudes has enough places. -/
theorem product_places {m n : ℕ} {e f : ℤ} (h : Canonical m e) (h' : Canonical n f) (hE : -1074 < e + f) :
    2 ^ 52 ≤ m * n := by
  rcases lt_or_ge (-1074) e with he | he
  · exact (h.full he).trans (Nat.le_mul_of_pos_right m h'.pos)
  · exact (h'.full (by have := h.least; omega)).trans (Nat.le_mul_of_pos_left n h.pos)

theorem AtMost.mul {x y : Float} {t u v : ℕ} (hx : AtMost x t) (hy : AtMost y u)
    (h : t + u + 2 ≤ v + 1074) (hv : v < 2098) : AtMost (x * y) v := by
  rcases hx.cases with hzero | ⟨s, m, e, hm, hx', hc, hplace⟩
  · exact (hzero.mul_right hy.isFinite).atMost v
  · rcases hy.cases with hzero | ⟨s', n, f, hn, hy', hc', hplace'⟩
    · exact (hzero.mul_left hx.isFinite).atMost v
    · refine atMost_of_stored (u := roundWithAccuracy Format.binary64 (s * s') (m * n) (e + f) .exact)
        (by rw [unpack_mul, hx', hy']; rfl) (magnitude_round_le (product_places hc hc') rfl ?_) hv
      have hlog := (log2_mul_bounds hm hn).2
      unfold firstPlace at hplace hplace' ⊢
      omega

theorem AtLeast.mul {x y : Float} {t t' u u' v : ℕ} (hx : AtLeast x t) (hx' : AtMost x t')
    (hy : AtLeast y u) (hy' : AtMost y u') (h : v + 1074 ≤ t + u) : AtLeast (x * y) v := by
  obtain ⟨s, m, e, hm, hx, hc, hplace, -⟩ := hx.finite hx'
  obtain ⟨s', n, f, hn, hy, hc', hplace', -⟩ := hy.finite hy'
  refine atLeast_of_stored (u := roundWithAccuracy Format.binary64 (s * s') (m * n) (e + f) .exact)
    (by rw [unpack_mul, hx, hy]; rfl)
    (le_magnitude_round (Nat.mul_pos hm hn) (product_places hc hc') rfl ?_)
  have hlog := (log2_mul_bounds hm hn).1
  unfold firstPlace at hplace hplace' ⊢
  omega

/-! ## Quotients -/

theorem log2_div_bounds {m n : ℕ} (hpos : 0 < m / n) (hn : 0 < n) :
    m.log2 ≤ (m / n).log2 + n.log2 + 1 ∧ (m / n).log2 + n.log2 ≤ m.log2 := by
  have hm : m ≠ 0 := by rintro rfl; simp at hpos
  obtain ⟨hlow, hhigh⟩ := (Nat.log2_eq_iff hpos.ne').mp rfl
  obtain ⟨hlow', hhigh'⟩ := (Nat.log2_eq_iff hn.ne').mp rfl
  constructor
  · rw [← Nat.lt_succ_iff, Nat.log2_lt hm]
    calc m < (m / n + 1) * n := Nat.lt_mul_of_div_lt (Nat.lt_succ_self _) hn
      _ ≤ 2 ^ ((m / n).log2 + 1) * 2 ^ (n.log2 + 1) := Nat.mul_le_mul hhigh hhigh'.le
      _ = 2 ^ ((m / n).log2 + n.log2 + 1).succ := by
        rw [← pow_add]
        congr 1
        omega
  · rw [Nat.le_log2 hm, pow_add]
    exact (Nat.mul_le_mul hlow hlow').trans (Nat.div_mul_le_self m n)

/-- The first place of a quotient before it is rounded. -/
theorem exists_quotient_places {m m' : ℕ} (e e' : ℤ) (s s' : Sign) (hm : 0 < m) (hm' : 0 < m') :
    ∃ M E accuracy, UnpackedFloat.div Format.binary64 (.finite s m e hm) (.finite s' m' e' hm') =
        roundWithAccuracy Format.binary64 (s / s') M E accuracy ∧ (-1074 < E → 2 ^ 52 ≤ M) ∧
      (firstPlace M E ≤ 0 ∨ firstPlace M E + firstPlace m' e' ≤ firstPlace m e + 1074) ∧
      (firstPlace m' e' < firstPlace m e + 1074 →
        0 < M ∧ firstPlace m e + 1074 ≤ firstPlace M E + firstPlace m' e' + 1) := by
  obtain ⟨E, accuracy, hcore, hE, hplaces⟩ := divCore_eq e e' hm hm'
  obtain ⟨j, hj⟩ : ∃ j : ℕ, e - e' - E = j := ⟨(e - e' - E).toNat, by omega⟩
  rw [hj, Int.toNat_natCast] at hcore hplaces
  have hshift : (m * 2 ^ j).log2 = m.log2 + j := by rw [← Nat.shiftLeft_eq, log2_shiftLeft hm]
  refine ⟨m * 2 ^ j / m', E, accuracy, by simp only [UnpackedFloat.div, hcore], hplaces, ?_, fun h => ?_⟩
  · rcases (m * 2 ^ j / m').eq_zero_or_pos with hzero | hpos
    · have hleast : E ≤ -1074 := by
        by_contra hgt
        exact absurd (hzero ▸ hplaces (by omega)) (by norm_num)
      exact .inl (by rw [hzero, firstPlace, Nat.log2_zero]; omega)
    · have hlog := (log2_div_bounds hpos hm').2
      exact .inr (by unfold firstPlace; omega)
  · have hpos : 0 < m * 2 ^ j / m' := by
      rcases lt_or_ge (-1074) E with hE | hE
      · exact (Nat.two_pow_pos 52).trans_le (hplaces hE)
      · refine Nat.div_pos ?_ hm'
        unfold firstPlace at h
        calc m' ≤ 2 ^ (m'.log2 + 1) := Nat.lt_log2_self.le
          _ ≤ 2 ^ (m * 2 ^ j).log2 := Nat.pow_le_pow_right (by norm_num) (by omega)
          _ ≤ m * 2 ^ j := Nat.log2_self_le (by positivity)
    have hlog := (log2_div_bounds hpos hm').1
    exact ⟨hpos, by unfold firstPlace; omega⟩

theorem Vanishes.div {x y : Float} {u u' : ℕ} (hx : Vanishes x) (hy : AtLeast y u) (hy' : AtMost y u') :
    Vanishes (x / y) := by
  obtain ⟨s, hx⟩ := hx
  obtain ⟨s', n, f, hn, hy, -⟩ := hy.finite hy'
  refine ⟨s / s', ?_⟩
  rw [unpack_div, hx, hy]
  exact unpack_pack_zero _

theorem AtMost.div {x y : Float} {t u u' v : ℕ} (hx : AtMost x t) (hy : AtLeast y u) (hy' : AtMost y u')
    (h : t + 1075 ≤ v + u) (hv : v < 2098) (hpos : 0 < v) : AtMost (x / y) v := by
  rcases hx.cases with hzero | ⟨s, m, e, hm, hx, -, hplace⟩
  · exact (hzero.div hy hy').atMost v
  · obtain ⟨s', n, f, hn, hy, -, hplace', -⟩ := hy.finite hy'
    obtain ⟨M, E, accuracy, hdiv, hplaces, hle, -⟩ := exists_quotient_places e f s s' hm hn
    exact atMost_of_stored (by rw [unpack_div, hx, hy]) (magnitude_round_le hplaces hdiv.symm (by omega)) hv

theorem AtLeast.div {x y : Float} {t t' u u' v : ℕ} (hx : AtLeast x t) (hx' : AtMost x t')
    (hy : AtLeast y u) (hy' : AtMost y u') (h : v + u' + 1 ≤ t + 1074) : AtLeast (x / y) v := by
  obtain ⟨s, m, e, hm, hx, -, hplace, -⟩ := hx.finite hx'
  obtain ⟨s', n, f, hn, hy, -, -, hplace'⟩ := hy.finite hy'
  obtain ⟨M, E, accuracy, hdiv, hplaces, -, hlow⟩ := exists_quotient_places e f s s' hm hn
  obtain ⟨hM, hle⟩ := hlow (by omega)
  exact atLeast_of_stored (by rw [unpack_div, hx, hy])
    (le_magnitude_round hM hplaces hdiv.symm (by omega))

/-! ## Sums and differences -/

/-- A whole multiple of a unit is rounded with enough places. -/
theorem exists_round_places (s : Sign) {m : ℕ} {e : ℤ} (hm : 0 < m) :
    ∃ k : ℕ, UnpackedFloat.round Format.binary64 s m e =
        roundWithAccuracy Format.binary64 s (m <<< k) (e - k) .exact ∧
      0 < m <<< k ∧ (-1074 < e - k → 2 ^ 52 ≤ m <<< k) := by
  simp only [UnpackedFloat.round, decreaseExponent, totalExponent, targetExponent_eq]
  set k := (e - max ((m.log2 : ℤ) + 1 + e - 53) (-1074)).toNat with hk
  have hpos : 0 < m <<< k := by rw [Nat.shiftLeft_eq]; positivity
  refine ⟨k, rfl, hpos, fun hE => ?_⟩
  rw [← Nat.le_log2 hpos.ne', log2_shiftLeft hm]
  omega

/-- A sum is rounded if it does not vanish. -/
theorem normalize_of_round {P : UnpackedFloat → Prop} {z e : ℤ} (hzero : P (.zero .positive))
    (hround : ∀ s, 0 < z.natAbs → P (UnpackedFloat.round Format.binary64 s z.natAbs e)) :
    P (UnpackedFloat.normalize Format.binary64 z e .positive) := by
  have hpart : ∀ (s : Sign) (n : ℕ), 0 < n → n = z.natAbs →
      P (UnpackedFloat.round Format.binary64 s n e) := by
    rintro s n hn rfl
    exact hround s hn
  unfold UnpackedFloat.normalize
  split
  · next hlt =>
    have := Int.compare_eq_lt.mp hlt
    exact hpart _ _ (by omega) (by omega)
  · exact hzero
  · next hgt =>
    have := Int.compare_eq_gt.mp hgt
    exact hpart _ _ (by omega) (by omega)

theorem normalize_le {z e : ℤ} {t : ℕ} (he : -1074 ≤ e) (h : units z.natAbs e ≤ 2 ^ t) :
    Stored (UnpackedFloat.normalize Format.binary64 z e .positive) ∧
      magnitude (UnpackedFloat.normalize Format.binary64 z e .positive) ≤ (2 ^ (t + 1) : ℕ) := by
  refine normalize_of_round (P := fun q => Stored q ∧ magnitude q ≤ (2 ^ (t + 1) : ℕ)) ⟨Stored.zero _, bot_le⟩
    fun s hz => ?_
  obtain ⟨k, hrounded, -, hplaces⟩ := exists_round_places (e := e) s hz
  have hplace := firstPlace_le hz he h
  refine magnitude_round_le hplaces hrounded.symm ?_
  unfold firstPlace at hplace ⊢
  rw [log2_shiftLeft hz]
  omega

theorem natAbs_apply (s : Sign) (n : ℕ) : (s.apply (n : ℤ)).natAbs = n := by
  cases s with
  | positive => rfl
  | negative => exact (Int.natAbs_neg _).trans rfl

/-- Two bounded magnitudes with signs, added in a common unit. -/
theorem normalize_add_le {a b e e' : ℤ} {m m' t : ℕ} (hc : Canonical m e) (hc' : Canonical m' e')
    (ha : a.natAbs = m <<< (e - min e e').toNat) (hb : b.natAbs = m' <<< (e' - min e e').toNat)
    (h : units m e ≤ 2 ^ t) (h' : units m' e' ≤ 2 ^ t) :
    Stored (UnpackedFloat.normalize Format.binary64 (a + b) (min e e') .positive) ∧
      magnitude (UnpackedFloat.normalize Format.binary64 (a + b) (min e e') .positive) ≤
        (2 ^ (t + 2) : ℕ) := by
  have hleast : -1074 ≤ min e e' := le_min hc.least hc'.least
  rw [← units_shiftLeft m (min_le_left e e') hleast, ← ha] at h
  rw [← units_shiftLeft m' (min_le_right e e') hleast, ← hb] at h'
  refine normalize_le hleast ?_
  calc units (a + b).natAbs (min e e') ≤ units (a.natAbs + b.natAbs) (min e e') :=
        Nat.mul_le_mul_right _ (Int.natAbs_add_le a b)
    _ = units a.natAbs (min e e') + units b.natAbs (min e e') := Nat.add_mul _ _ _
    _ ≤ 2 ^ t + 2 ^ t := Nat.add_le_add h h'
    _ = 2 ^ (t + 1) := by ring

/-- A finite sum is a zero or one of its summands, unless both of them are above zero or below it. -/
theorem add_of_finite {P : UnpackedFloat → Prop} {x y : UnpackedFloat} (hxfin : magnitude x ≠ ⊤)
    (hyfin : magnitude y ≠ ⊤) (hzero : ∀ s, P (.zero s)) (hx : P x) (hy : P y)
    (hfinite : ∀ {s m e hm s' m' e' hm'}, x = .finite s m e hm → y = .finite s' m' e' hm' →
      P (UnpackedFloat.add Format.binary64 x y)) : P (UnpackedFloat.add Format.binary64 x y) := by
  cases x with
  | infinity | notANumber => exact absurd rfl hxfin
  | zero s =>
    cases y with
    | infinity | notANumber => exact absurd rfl hyfin
    | zero s' => cases s <;> cases s' <;> exact hzero _
    | finite s' m' e' hm' => exact hy
  | finite s m e hm =>
    cases y with
    | infinity | notANumber => exact absurd rfl hyfin
    | zero s' => exact hx
    | finite s' m' e' hm' => exact hfinite rfl rfl

theorem add_le {x y : UnpackedFloat} {t : ℕ} (hx : Stored x) (hy : Stored y)
    (hxt : magnitude x ≤ (2 ^ t : ℕ)) (hyt : magnitude y ≤ (2 ^ t : ℕ)) :
    Stored (UnpackedFloat.add Format.binary64 x y) ∧
      magnitude (UnpackedFloat.add Format.binary64 x y) ≤ (2 ^ (t + 2) : ℕ) := by
  have hnext : ∀ {q : UnpackedFloat}, magnitude q ≤ (2 ^ t : ℕ) → magnitude q ≤ (2 ^ (t + 2) : ℕ) := fun h =>
    h.trans (Nat.cast_le.mpr (Nat.pow_le_pow_right (by norm_num) (by omega)))
  refine add_of_finite (P := fun q => Stored q ∧ magnitude q ≤ (2 ^ (t + 2) : ℕ))
    (hxt.trans_lt (WithTop.coe_lt_top _)).ne (hyt.trans_lt (WithTop.coe_lt_top _)).ne
    (fun s => ⟨Stored.zero s, bot_le⟩) ⟨hx, hnext hxt⟩ ⟨hy, hnext hyt⟩ ?_
  rintro s m e hm s' m' e' hm' rfl rfl
  exact normalize_add_le (hx rfl) (hy rfl) (natAbs_apply s _) (natAbs_apply s' _)
    (Nat.cast_le.mp hxt) (Nat.cast_le.mp hyt)

/-- A difference is the sum with the opposite number. -/
theorem sub_eq_add_opposite (x y : UnpackedFloat) : UnpackedFloat.sub Format.binary64 x y =
    UnpackedFloat.add Format.binary64 x (UnpackedFloat.neg y) := by
  cases x with
  | finite s m e hm =>
    cases y with
    | finite s' m' e' hm' =>
      have hneg : ∀ n : ℤ, (-s').apply n = -s'.apply n := by cases s' <;> simp [Sign.apply]
      simp only [UnpackedFloat.sub, UnpackedFloat.neg, UnpackedFloat.add, hneg, Int.sub_eq_add_neg]
    | _ => rfl
  | _ => cases y <;> rfl

theorem sub_le {x y : UnpackedFloat} {t : ℕ} (hx : Stored x) (hy : Stored y)
    (hxt : magnitude x ≤ (2 ^ t : ℕ)) (hyt : magnitude y ≤ (2 ^ t : ℕ)) :
    Stored (UnpackedFloat.sub Format.binary64 x y) ∧
      magnitude (UnpackedFloat.sub Format.binary64 x y) ≤ (2 ^ (t + 2) : ℕ) := by
  rw [sub_eq_add_opposite]
  cases y with
  | finite s m e hm => exact add_le hx (Stored.finite (hy rfl)) hxt hyt
  | zero s => exact add_le hx (Stored.zero _) hxt hyt
  | infinity | notANumber => exact absurd hyt (by simp [magnitude])

theorem AtMost.add {x y : Float} {t v : ℕ} (hx : AtMost x t) (hy : AtMost y t) (h : t + 2 ≤ v)
    (hv : v < 2098) : AtMost (x + y) v :=
  (atMost_of_stored (v := t + 2) (unpack_add x y) (add_le (stored_unpack x) (stored_unpack y) hx hy)
    (by omega)).mono h

theorem AtMost.sub {x y : Float} {t v : ℕ} (hx : AtMost x t) (hy : AtMost y t) (h : t + 2 ≤ v)
    (hv : v < 2098) : AtMost (x - y) v :=
  (atMost_of_stored (v := t + 2) (unpack_sub x y) (sub_le (stored_unpack x) (stored_unpack y) hx hy)
    (by omega)).mono h

/-- A magnitude that stays below the half place before an exponent's end is rounded below that end. -/
theorem round_lt {s : Sign} {m : ℕ} {e T : ℤ} (hm : 0 < m) (he : -1074 ≤ e) (hT : e < T)
    (h : m < overflowAt T e) : Stored (UnpackedFloat.round Format.binary64 s m e) ∧
      magnitude (UnpackedFloat.round Format.binary64 s m e) < units (2 ^ 53) T := by
  obtain ⟨j, hrounded, hpos, hplaces⟩ := exists_round_places (e := e) s hm
  obtain ⟨k, hk, hbounds⟩ := exists_lastPlace hplaces
  have hfiner : overflowAt T (e - j) = overflowAt T e * 2 ^ j := by
    have hexponent : (T - 1 - (e - j)).toNat = (T - 1 - e).toNat + j := by omega
    rw [overflowAt, overflowAt, hexponent, pow_add, mul_assoc]
  have hbelow := (rounded_lt_iff hpos hk (by omega) (by omega)).mpr
    (show m <<< j < overflowAt T (e - j) by
      rw [hfiner, Nat.shiftLeft_eq]
      exact Nat.mul_lt_mul_of_pos_right h (by positivity))
  have hcut : (ExtendedMantissa.ofMantissaAndAccuracy (m <<< j) .exact >>> k).roundedMantissa =
      (cut (m <<< j) k).roundedMantissa := rfl
  obtain ⟨hzero, hfinite⟩ := roundWithAccuracy_residual s hk hbounds hcut
  rw [hrounded]
  rcases Nat.eq_zero_or_pos (cut (m <<< j) k).roundedMantissa with h0 | h0
  · rw [hzero h0]
    exact ⟨Stored.zero _, Nat.cast_lt.mpr (Nat.mul_pos (by norm_num) (by positivity))⟩
  · obtain ⟨n, f, hn, heq, hc, hunits⟩ := hfinite h0
    rw [heq]
    exact ⟨Stored.finite hc, Nat.cast_lt.mpr (hunits.trans_lt hbelow)⟩

theorem normalize_lt {z e T : ℤ} (he : -1074 ≤ e) (hT : e < T) (h : z.natAbs < overflowAt T e) :
    Stored (UnpackedFloat.normalize Format.binary64 z e .positive) ∧
      magnitude (UnpackedFloat.normalize Format.binary64 z e .positive) < units (2 ^ 53) T :=
  normalize_of_round (P := fun q => Stored q ∧ magnitude q < units (2 ^ 53) T)
    ⟨Stored.zero _, Nat.cast_lt.mpr (Nat.mul_pos (by norm_num) (by positivity))⟩
    fun _ hz => round_lt hz he hT h

/-- Two magnitudes with signs, the second of less than half the last place that is kept below a power of two. -/
theorem add_finite_lt {s s' : Sign} {m m' i : ℕ} {e e' : ℤ} (hm : 0 < m) (hm' : 0 < m') (hc : Canonical m e)
    (hc' : Canonical m' e') (h : units m e < 2 ^ (i + 54)) (h' : units m' e' < 2 ^ i) {q : UnpackedFloat}
    (hq : UnpackedFloat.add Format.binary64 (.finite s m e hm) (.finite s' m' e' hm') = q) :
    Stored q ∧ magnitude q < (2 ^ (i + 54) : ℕ) := by
  have hleast := hc.least
  have hleast' := hc'.least
  have hend : 2 ^ (i + 54) = units (2 ^ 53) (i - 1073) := by
    rw [units, ← pow_add]
    congr 1
    omega
  have htop : e ≤ (i : ℤ) - 1073 := (hc.exponent_le_iff (by omega)).mpr (hend ▸ h)
  have hfine : e' < (i : ℤ) - 1074 := by
    have hplace : 2 ^ (e' + 1074).toNat < 2 ^ i := (Nat.le_mul_of_pos_left _ hm').trans_lt h'
    have := (Nat.pow_lt_pow_iff_right (by norm_num)).mp hplace
    omega
  obtain ⟨E, hE⟩ : ∃ E, min e e' = E := ⟨_, rfl⟩
  -- In the finer unit the sum is less than a half place beyond the largest significand below the power.
  have ha : m <<< (e - E).toNat ≤ (2 ^ 53 - 1) * (2 * 2 ^ ((i : ℤ) - 1073 - 1 - E).toNat) := by
    rw [Nat.shiftLeft_eq, ← pow_succ']
    exact Nat.mul_le_mul (Nat.le_pred_of_lt hc.lt) (Nat.pow_le_pow_right (by norm_num) (by omega))
  have hb : m' <<< (e' - E).toNat < 2 ^ ((i : ℤ) - 1073 - 1 - E).toNat := by
    have hsplit : 2 ^ i = 2 ^ ((i : ℤ) - 1073 - 1 - E).toNat * 2 ^ (E + 1074).toNat := by
      rw [← pow_add]
      exact congrArg (2 ^ ·) (by omega)
    rw [← units_shiftLeft m' (min_le_right e e') (by omega), hE, units, hsplit] at h'
    exact Nat.lt_of_mul_lt_mul_right h'
  simp only [UnpackedFloat.add, decreaseExponent, hE] at hq
  generalize m <<< (e - E).toNat = a at ha hq
  generalize m' <<< (e' - E).toNat = b at hb hq
  have habs : (s.apply (a : ℤ) + s'.apply (b : ℤ)).natAbs ≤ a + b :=
    (Int.natAbs_add_le _ _).trans_eq (by rw [natAbs_apply, natAbs_apply])
  rw [← hq, hend]
  refine normalize_lt (by omega) (by omega) ?_
  unfold overflowAt
  omega

/-- A summand of less than half the last place that is kept below a power of two does not lead across it, however
often such summands are added. -/
theorem add_lt_two_pow {x y : Float} {i : ℕ} (hx : magnitude x.toModel.unpack < (2 ^ (i + 54) : ℕ))
    (hy : magnitude y.toModel.unpack < (2 ^ i : ℕ)) (hi : i < 2044) :
    magnitude (x + y).toModel.unpack < (2 ^ (i + 54) : ℕ) := by
  have hstored : Stored x.toModel.unpack := stored_unpack x
  have hstored' : Stored y.toModel.unpack := stored_unpack y
  have hrange : (2 ^ (i + 54) : ℕ) ≤ units (2 ^ 53) 971 := (two_pow_lt_range (by omega)).le
  have hpos : 0 < 2 ^ (i + 54) := Nat.two_pow_pos _
  have hmore : 2 ^ i ≤ 2 ^ (i + 54) := Nat.pow_le_pow_right (by norm_num) (by omega)
  obtain ⟨hsum, hlt⟩ : Stored (UnpackedFloat.add Format.binary64 x.toModel.unpack y.toModel.unpack) ∧
      magnitude (UnpackedFloat.add Format.binary64 x.toModel.unpack y.toModel.unpack) <
        (2 ^ (i + 54) : ℕ) := by
    refine add_of_finite (P := fun q => Stored q ∧ magnitude q < (2 ^ (i + 54) : ℕ)) hx.ne_top hy.ne_top
      (fun s => ⟨Stored.zero s, Nat.cast_lt.mpr hpos⟩) ⟨hstored, hx⟩
      ⟨hstored', hy.trans_le (Nat.cast_le.mpr hmore)⟩ ?_
    intro s m e hm s' m' e' hm' hu hw
    rw [hu] at hx
    rw [hw] at hy
    exact add_finite_lt hm hm' (hstored hu) (hstored' hw) (Nat.cast_lt.mp hx) (Nat.cast_lt.mp hy)
      (congrArg₂ _ hu.symm hw.symm)
  rw [unpack_add]
  change magnitude (stored _) < _
  rw [stored_of_lt hsum (hlt.trans_le (Nat.cast_le.mpr hrange))]
  exact hlt

/-! ## Square roots -/

theorem log2_sqrt_bounds {n : ℕ} (hn : 0 < n) : n.log2 ≤ 2 * n.sqrt.log2 + 1 ∧ 2 * n.sqrt.log2 ≤ n.log2 := by
  have hpos : 0 < n.sqrt := Nat.sqrt_pos.mpr hn
  obtain ⟨hlow, hhigh⟩ := (Nat.log2_eq_iff hpos.ne').mp rfl
  constructor
  · rw [← Nat.lt_succ_iff, Nat.log2_lt hn.ne']
    calc n < (n.sqrt + 1) * (n.sqrt + 1) := Nat.lt_succ_sqrt n
      _ ≤ 2 ^ (n.sqrt.log2 + 1) * 2 ^ (n.sqrt.log2 + 1) := Nat.mul_le_mul hhigh hhigh
      _ = 2 ^ (2 * n.sqrt.log2 + 1).succ := by
        rw [← pow_add]
        congr 1
        omega
  · rw [Nat.le_log2 hn.ne', two_mul, pow_add]
    exact (Nat.mul_le_mul hlow hlow).trans (Nat.sqrt_le n)

/-- The first place of a root before it is rounded. -/
theorem exists_root_places {m : ℕ} {e : ℤ} (hm : 0 < m) :
    ∃ M E accuracy, UnpackedFloat.sqrt Format.binary64 (.finite .positive m e hm) =
        roundWithAccuracy Format.binary64 .positive M E accuracy ∧ 0 < M ∧ (-1074 < E → 2 ^ 52 ≤ M) ∧
      2 * firstPlace M E ≤ firstPlace m e + 1074 ∧ firstPlace m e + 1073 ≤ 2 * firstPlace M E := by
  have hhalf : ∀ x : ℤ, x.ediv 2 = x / 2 := fun _ => rfl
  simp only [UnpackedFloat.sqrt, sqrtCore, totalExponent, targetExponent_eq, hhalf]
  set E := min (e / 2) (max (((m.log2 : ℤ) + 1 + e + 1) / 2 - 53) (-1074)) with hE
  obtain ⟨j, hj⟩ : ∃ j : ℕ, e - 2 * E = j := ⟨(e - 2 * E).toNat, by omega⟩
  rw [hj, Int.toNat_natCast]
  have hshift := log2_shiftLeft hm j
  have hpos : 0 < m <<< j := by rw [Nat.shiftLeft_eq]; positivity
  obtain ⟨hlow, hhigh⟩ := log2_sqrt_bounds hpos
  have hroot : 0 < (m <<< j).sqrt := Nat.sqrt_pos.mpr hpos
  refine ⟨_, _, _, rfl, hroot, fun hleast => ?_, ?_, ?_⟩
  · rw [← Nat.le_log2 hroot.ne']
    omega
  · unfold firstPlace
    omega
  · unfold firstPlace
    omega

theorem unpack_sqrt (x : Float) :
    x.sqrt.toModel.unpack = stored (UnpackedFloat.sqrt Format.binary64 x.toModel.unpack) :=
  rfl

theorem AtMost.sqrt {x : Float} {t v : ℕ} (hx : AtMost x t) (hx₀ : Nonnegative x.toModel.unpack)
    (h : t + 1076 ≤ 2 * v) (hv : v < 2098) : AtMost x.sqrt v := by
  rcases hx.cases with ⟨s, hzero⟩ | ⟨s, m, e, hm, hx, -, hplace⟩
  · refine Vanishes.atMost ⟨s, ?_⟩ v
    rw [unpack_sqrt, hzero]
    exact unpack_pack_zero s
  · rw [hx] at hx₀
    cases s with
    | negative => exact absurd hx₀ (by simp [Nonnegative])
    | positive =>
      obtain ⟨M, E, accuracy, hsqrt, -, hplaces, hle, -⟩ := exists_root_places (e := e) hm
      exact atMost_of_stored (by rw [unpack_sqrt, hx])
        (magnitude_round_le hplaces hsqrt.symm (by omega)) hv

theorem AtLeast.sqrt {x : Float} {t t' v : ℕ} (hx : AtLeast x t) (hx' : AtMost x t')
    (hx₀ : Nonnegative x.toModel.unpack) (h : 2 * v ≤ t + 1074) : AtLeast x.sqrt v := by
  obtain ⟨s, m, e, hm, hx, -, hplace, -⟩ := hx.finite hx'
  rw [hx] at hx₀
  cases s with
  | negative => exact absurd hx₀ (by simp [Nonnegative])
  | positive =>
    obtain ⟨M, E, accuracy, hsqrt, hM, hplaces, -, hlow⟩ := exists_root_places (e := e) hm
    exact atLeast_of_stored (by rw [unpack_sqrt, hx])
      (le_magnitude_round hM hplaces hsqrt.symm (by omega))

end QubitPulse.Double
