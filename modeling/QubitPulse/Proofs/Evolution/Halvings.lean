import QubitPulse.Proofs.Double.Length
import QubitPulse.Proofs.Double.PowersOfTwo

/-!
# Norms and halvings

How often a matrix of doubles is halved is counted from its norm. Up to a norm of about `2 ^ 1022` the power of two
that it is divided by is a double; a larger norm asks for a power that is infinite.
-/
namespace QubitPulse
open Float.Model Float.Model.UnpackedFloat Double

/-! ## Norms -/

namespace Double

/-- What is above a number that is not below zero is not below zero either. -/
theorem nonnegative_of_compare {x y : UnpackedFloat} (hx : Nonnegative x) (h : x.compare y = some .lt) :
    Nonnegative y := by
  rcases x with ⟨_ | _⟩ | _ | s | ⟨_ | _, m, e, hm⟩ <;>
    rcases y with ⟨_ | _⟩ | _ | s' | ⟨_ | _, m', e', hm'⟩ <;>
    simp_all [Nonnegative, UnpackedFloat.compare]

theorem max_eq_or (x y : Float) : Scalar.max x y = x ∨ Scalar.max x y = y := by
  unfold Scalar.max
  split_ifs
  · exact .inr rfl
  · exact .inl rfl
  · exact .inr rfl
  · exact .inl rfl

theorem nonnegative_max {x : Float} (hx : Nonnegative x.toModel.unpack) (y : Float) :
    Nonnegative (Scalar.max x y).toModel.unpack := by
  have hnumber : Scalar.isNaN x = false := by
    change x.toModel.unpack.isNaN = false
    generalize x.toModel.unpack = u at hx
    cases u with
    | notANumber => exact hx.elim
    | _ => rfl
  unfold Scalar.max
  rw [hnumber, if_neg Bool.false_ne_true]
  split_ifs with hnan hlt
  · exact hx
  · rw [lt_eq, decide_eq_true_iff] at hlt
    exact nonnegative_of_compare hx hlt
  · exact hx

/-- The largest member of a list is a number and not below zero, whatever is in the list. -/
theorem nonnegative_maximum (xs : List Float) : Nonnegative (Scalar.maximum xs).toModel.unpack := by
  have hfold : ∀ start : Float, Nonnegative start.toModel.unpack →
      Nonnegative (xs.foldl Scalar.max start).toModel.unpack := by
    induction xs with
    | nil => exact fun start h => h
    | cons x xs ih => exact fun start h => ih _ (nonnegative_max h x)
  exact hfold Scalar.zero trivial

theorem maximum_eq_zero_or_mem (xs : List Float) :
    Scalar.maximum xs = Scalar.zero ∨ Scalar.maximum xs ∈ xs := by
  have hfold : ∀ start : Float, xs.foldl Scalar.max start = start ∨ xs.foldl Scalar.max start ∈ xs := by
    induction xs with
    | nil => exact fun start => .inl rfl
    | cons x xs ih =>
      intro start
      rcases ih (Scalar.max start x) with h | h
      · rcases max_eq_or start x with h' | h'
        · exact .inl (h.trans h')
        · exact .inr (List.mem_cons.mpr (.inl (h.trans h')))
      · exact .inr (List.mem_cons_of_mem _ h)
  exact hfold Scalar.zero

/-- A sum of small terms is bounded, however many there are. -/
theorem sumTo_lt {f : ℕ → Float} {n i : ℕ} (hi : i < 2044)
    (h : ∀ k < n, magnitude (f k).toModel.unpack < (2 ^ i : ℕ)) :
    magnitude (Scalar.sumTo n f).toModel.unpack < (2 ^ (i + 54) : ℕ) := by
  induction n with
  | zero =>
    have hzero : Scalar.sumTo 0 f = Scalar.zero := rfl
    rw [hzero, vanishes_iff_magnitude.mp Reads.zero.vanishes]
    exact Nat.cast_pos.mpr (Nat.two_pow_pos _)
  | succ n ih =>
    exact add_lt_two_pow (ih fun k hk => h k (Nat.lt_succ_of_lt hk)) (h n (Nat.lt_succ_self n)) hi

end Double

namespace Operator

theorem nonnegative_oneNorm (a : Operator Float) : Nonnegative (oneNorm a).toModel.unpack :=
  nonnegative_maximum _

/-- Coordinates of at most `2 ^ t` units bound the norm of a matrix of any size. -/
theorem oneNorm_lt {a : Operator Float} {t : ℕ} (ht : t ≤ 1100)
    (h : ∀ i < a.rows, ∀ j < a.cols, AtMost (a.entry i j).re t ∧ AtMost (a.entry i j).im t) :
    magnitude (oneNorm a).toModel.unpack < (2 ^ (t + 82) : ℕ) := by
  rcases maximum_eq_zero_or_mem ((List.range a.cols).map fun j =>
    Scalar.sumTo a.rows fun i => (a.entry i j).norm) with hzero | hmem
  · rw [oneNorm, hzero]
    exact Nat.cast_lt.mpr (Nat.two_pow_pos _)
  · obtain ⟨j, hj, hsum⟩ := List.mem_map.mp hmem
    rw [oneNorm, ← hsum]
    refine sumTo_lt (i := t + 28) (by omega) fun i hi => ?_
    obtain ⟨hre, him⟩ := h i hi j (List.mem_range.mp hj)
    exact (hypot_atMost hre him ht).trans_lt (Nat.cast_lt.mpr (Nat.pow_lt_pow_right (by norm_num) (by omega)))

/-! ## Halvings -/

/-- The largest norm that is halved by a power of two in the range. It is `2 ^ 1022` and the 177 steps of `2 ^ 970`
above it that a rounded logarithm does not see. -/
def mostScalable : Float := Float.ofBits 0x7fd00000000000b1

section Halvings

variable {norm : Float}

theorem half_lt_iff (h₀ : Nonnegative norm.toModel.unpack) :
    (seriesNorm : Float) < norm ↔ (units (2 ^ 52) (-53) : ℕ) < magnitude norm.toModel.unpack :=
  lt_iff_magnitude (x := seriesNorm) trivial h₀

/-- A norm above one half is infinite, or has all its places. -/
theorem infinite_or_finite_of_half_lt (h₀ : Nonnegative norm.toModel.unpack)
    (h : (seriesNorm : Float) < norm) : norm.toModel.unpack = .infinity .positive ∨
      ∃ m e hm, norm.toModel.unpack = .finite .positive m e hm ∧ 2 ^ 52 ≤ m ∧ -53 ≤ e := by
  rw [half_lt_iff h₀] at h
  cases hnorm : norm.toModel.unpack with
  | notANumber => exact absurd h₀ (by simp [hnorm, Nonnegative])
  | zero s =>
    rw [hnorm] at h
    exact absurd h not_lt_bot
  | infinity s =>
    cases s with
    | negative => exact absurd h₀ (by simp [hnorm, Nonnegative])
    | positive => exact .inl rfl
  | finite s m e hm =>
    cases s with
    | negative => exact absurd h₀ (by simp [hnorm, Nonnegative])
    | positive =>
      have hc : Canonical m e := stored_unpack norm hnorm
      rw [hnorm, magnitude, Nat.cast_lt] at h
      have he : -53 ≤ e := by
        by_contra hlt
        exact h.not_gt (units_lt_of_lt hc (canonical_two_pow (by decide)) (.inl (not_le.mp hlt)))
      exact .inr ⟨m, e, hm, rfl, hc.full (by omega), he⟩

theorem halvings_of_half_lt (h : (seriesNorm : Float) < norm) :
    halvings norm = doublings (norm / seriesNorm) :=
  if_pos (decide_eq_true h)

theorem halvings_of_not_half_lt (h : ¬(seriesNorm : Float) < norm) : halvings norm = 0 :=
  if_neg (mt of_decide_eq_true h)

/-- The double of a finite norm is counted by its exponent, or is infinite. -/
theorem halvings_finite {m : ℕ} {e : ℤ} {hm : 0 < m} (h : (seriesNorm : Float) < norm)
    (hnorm : norm.toModel.unpack = .finite .positive m e hm) (hfull : 2 ^ 52 ≤ m) (he : -53 ≤ e) :
    halvings norm = if 970 < e then mostDoublings else
      if m - 2 ^ 52 ≤ logarithmSlack (e + 53).toNat then (e + 53).toNat else (e + 53).toNat + 1 := by
  have hplace : e + 1 + 52 = e + 53 := by omega
  have hquotient := unpack_div_half hnorm hfull
  rw [halvings_of_half_lt h]
  by_cases htop : 970 < e
  · rw [if_pos htop] at hquotient ⊢
    exact doublings_infinite hquotient
  · rw [if_neg htop] at hquotient ⊢
    rw [doublings_finite hquotient (by omega), hplace]

theorem halvings_infinite (h : (seriesNorm : Float) < norm)
    (hnorm : norm.toModel.unpack = .infinity .positive) : halvings norm = mostDoublings := by
  rw [halvings_of_half_lt h]
  refine doublings_infinite ?_
  rw [unpack_div, hnorm, unpack_half]
  exact unpack_pack_infinity .positive

theorem magnitude_mostScalable :
    magnitude mostScalable.toModel.unpack = (units (2 ^ 52 + 177) 970 : ℕ) :=
  rfl

theorem canonical_mostScalable : Canonical (2 ^ 52 + 177) 970 :=
  ⟨by decide, by decide, by decide, fun _ => by decide⟩

theorem logarithmSlack_1023 : logarithmSlack 1023 = 177 := rfl

/-- The count of a finite norm is in the range if the norm is not above the bound. -/
theorem count_le_iff {m : ℕ} {e : ℤ} (hc : Canonical m e) :
    (if 970 < e then mostDoublings else
      if m - 2 ^ 52 ≤ logarithmSlack (e + 53).toNat then (e + 53).toNat else (e + 53).toNat + 1) ≤ 1023 ↔
      units m e ≤ units (2 ^ 52 + 177) 970 := by
  have hbits := hc.lt
  rcases lt_trichotomy e 970 with hbelow | rfl | habove
  · refine iff_of_true ?_ (units_lt_of_lt hc canonical_mostScalable (.inl hbelow)).le
    rw [if_neg (by omega)]
    split_ifs <;> omega
  · have hplace : ((970 : ℤ) + 53).toNat = 1023 := rfl
    have hsame : units m 970 ≤ units (2 ^ 52 + 177) 970 ↔ m ≤ 2 ^ 52 + 177 :=
      Nat.mul_le_mul_right_iff (by positivity)
    rw [if_neg (lt_irrefl 970), hplace, logarithmSlack_1023, hsame]
    split_ifs <;> omega
  · refine iff_of_false ?_ (units_lt_of_lt canonical_mostScalable hc (.inl habove)).not_ge
    rw [if_pos habove]
    decide

/-- The count of halvings is in the range of the powers of two up to the largest norm that can be scaled. -/
theorem halvings_le_iff (h₀ : Nonnegative norm.toModel.unpack) :
    halvings norm ≤ 1023 ↔ norm ≤ mostScalable := by
  have hmost₀ : Nonnegative mostScalable.toModel.unpack := trivial
  rw [le_iff_magnitude h₀ hmost₀, magnitude_mostScalable]
  by_cases h : (seriesNorm : Float) < norm
  · rcases infinite_or_finite_of_half_lt h₀ h with hnorm | ⟨m, e, hm, hnorm, hfull, he⟩
    · rw [halvings_infinite h hnorm, hnorm]
      exact iff_of_false (by decide) (not_le.mpr (WithTop.coe_lt_top _))
    · rw [halvings_finite h hnorm hfull he, hnorm, magnitude, Nat.cast_le]
      exact count_le_iff (stored_unpack norm hnorm)
  · have hlt := units_lt_of_lt (canonical_two_pow (e := -53) (by decide)) canonical_mostScalable
      (.inl (by decide))
    rw [halvings_of_not_half_lt h]
    rw [half_lt_iff h₀, not_lt] at h
    exact iff_of_true (by omega) (h.trans (Nat.cast_le.mpr hlt.le))

/-- A norm that is halved by a power of two in the range is not far below that power. -/
theorem atLeast_of_halvings (h₀ : Nonnegative norm.toModel.unpack) (h : (seriesNorm : Float) < norm)
    (hs : halvings norm ≤ 1023) : AtLeast norm (halvings norm + 1072) := by
  rcases infinite_or_finite_of_half_lt h₀ h with hnorm | ⟨m, e, hm, hnorm, hfull, he⟩
  · rw [AtLeast, hnorm]
    exact le_top
  · have hcount := halvings_finite h hnorm hfull he
    have hle : halvings norm ≤ (e + 54).toNat := by
      rw [hcount] at hs ⊢
      split_ifs at hs ⊢
      · exact absurd hs (by decide)
      all_goals omega
    rw [AtLeast, hnorm, magnitude, Nat.cast_le]
    calc 2 ^ (halvings norm + 1072) ≤ 2 ^ (52 + (e + 1074).toNat) :=
          Nat.pow_le_pow_right (by norm_num) (by omega)
      _ = 2 ^ 52 * 2 ^ (e + 1074).toNat := pow_add _ _ _
      _ ≤ units m e := Nat.mul_le_mul_right _ hfull

/-- A norm that cannot be scaled is halved once too often, or as often as can be counted at all. -/
theorem halvings_of_not_scalable (h₀ : Nonnegative norm.toModel.unpack) (h : ¬norm ≤ mostScalable) :
    halvings norm = if norm < twoPow 1023 then 1024 else mostDoublings := by
  have hmany := mt (halvings_le_iff h₀).mp h
  have hhalf : (seriesNorm : Float) < norm := by
    by_contra hsmall
    exact hmany (halvings_of_not_half_lt hsmall ▸ by decide)
  have hpower := unpack_twoPow (n := 1023) (by decide)
  have hlt := lt_iff_magnitude h₀ (y := twoPow 1023) (by rw [hpower]; trivial)
  rw [hpower] at hlt
  rcases infinite_or_finite_of_half_lt h₀ hhalf with hnorm | ⟨m, e, hm, hnorm, hfull, he⟩
  · have hlarge : ¬norm < twoPow 1023 := by
      rw [hlt, hnorm]
      exact not_top_lt
    rw [if_neg hlarge, halvings_infinite hhalf hnorm]
  · have hc : Canonical m e := stored_unpack norm hnorm
    have hcount := halvings_finite hhalf hnorm hfull he
    rw [hnorm, magnitude, magnitude, Nat.cast_lt] at hlt
    by_cases htop : 970 < e
    · have hlarge : ¬norm < twoPow 1023 := by
        rw [hlt, not_lt]
        exact Nat.mul_le_mul hfull (Nat.pow_le_pow_right (by norm_num) (by omega))
      rw [if_neg hlarge, hcount, if_pos htop]
    · rw [if_pos (hlt.mpr (units_lt_of_lt hc (canonical_two_pow (by decide)) (.inl (by omega)))), hcount,
        if_neg htop]
      rw [hcount, if_neg htop] at hmany
      split_ifs at hmany ⊢ <;> omega

end Halvings
end Operator
end QubitPulse
