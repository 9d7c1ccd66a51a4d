import QubitPulse.Proofs.Double.Bounds

/-!
# Lengths of plane vectors

The length of a vector that is computed with a corrected root, or after its coordinates are scaled, is bounded by
a fixed multiple of the larger coordinate.
-/
namespace QubitPulse.Double
open Float.Model Float.Model.UnpackedFloat

theorem AtMost.mul_self_nonnegative {x : Float} {t : ℕ} (h : AtMost x t) :
    Nonnegative (x * x).toModel.unpack := by
  rcases h.cases with ⟨s, hx⟩ | ⟨s, m, e, hm, hx, hc, -⟩
  · rw [unpack_mul, hx]
    cases s <;> exact trivial
  · have hsign : s * s = .positive := by cases s <;> rfl
    obtain ⟨_, _, -, -, -, -, hstored, -, hnonneg⟩ :=
      exists_rounded (q := roundWithAccuracy Format.binary64 .positive (m * m) (e + e) .exact)
        (product_places hc hc) rfl
    rw [unpack_mul, hx]
    refine (unpack_pack_nonnegative ?_ ?_).1
    · exact (congrArg (fun s => Nonnegative (roundWithAccuracy Format.binary64 s (m * m) (e + e) .exact))
        hsign).mpr (hnonneg rfl)
    · exact (congrArg (fun s => Stored (roundWithAccuracy Format.binary64 s (m * m) (e + e) .exact))
        hsign).mpr hstored

theorem magnitude_two_pow {c : Float} {s : Sign} {e : ℤ} {h : 0 < 2 ^ 52} {t : ℕ}
    (hc : c.toModel.unpack = .finite s (2 ^ 52) e h) (he : -1074 ≤ e) (ht : t = e + 1126) :
    magnitude c.toModel.unpack = (2 ^ t : ℕ) := by
  rw [hc, magnitude, units, ← pow_add]
  exact congrArg (fun n : ℕ => ((2 ^ n : ℕ) : ℕ∞)) (by omega)

theorem magnitude_two : magnitude (2.0 : Float).toModel.unpack = (2 ^ 1075 : ℕ) :=
  magnitude_two_pow (s := .positive) (e := -51) (h := by decide) rfl (by decide) rfl

theorem magnitude_four : magnitude (4.0 : Float).toModel.unpack = (2 ^ 1076 : ℕ) :=
  magnitude_two_pow (s := .positive) (e := -50) (h := by decide) rfl (by decide) rfl

theorem magnitude_lengthScale : magnitude lengthScale.toModel.unpack = (2 ^ 474 : ℕ) :=
  magnitude_two_pow (s := .positive) (e := -652) (h := by decide) rfl (by decide) rfl

theorem magnitude_lengthEpsilon : magnitude lengthEpsilon.toModel.unpack = (2 ^ 1020 : ℕ) :=
  magnitude_two_pow (s := .positive) (e := -106) (h := by decide) rfl (by decide) rfl

theorem magnitude_largeCoordinate : magnitude largeCoordinate.toModel.unpack = (2 ^ 1585 : ℕ) :=
  magnitude_two_pow (s := .positive) (e := 459) (h := by decide) rfl (by decide) rfl

theorem magnitude_smallCoordinate : magnitude smallCoordinate.toModel.unpack = (2 ^ 615 : ℕ) :=
  magnitude_two_pow (s := .positive) (e := -511) (h := by decide) rfl (by decide) rfl

/-- The corrected root is not far from the larger coordinate. -/
theorem correctedLength_atMost {x y : Float} {L U V : ℕ} (hlow : AtLeast x L) (hx : AtMost x U)
    (hy : AtMost y U) (hL : 1074 ≤ 2 * L) (hLU : L ≤ U) (hU : U ≤ 1500) (hV : 2 * U + 20 ≤ V + L)
    (hrange : V < 2098) : AtMost (correctedLength x y) V := by
  have htwo : AtLeast 2.0 1075 := magnitude_two.ge
  have htwo' : AtMost 2.0 1075 := magnitude_two.le
  have hfour : AtMost 4.0 1076 := magnitude_four.le
  have hxx₀ := hx.mul_self_nonnegative
  have hyy₀ := hy.mul_self_nonnegative
  have hxx : AtMost (x * x) (2 * U - 1072) := hx.mul hx (by omega) (by omega)
  have hyy : AtMost (y * y) (2 * U - 1072) := hy.mul hy (by omega) (by omega)
  have hsum : AtMost (x * x + y * y) (2 * U - 1070) := hxx.add hyy (by omega) (by omega)
  have hsum' : AtLeast (x * x + y * y) (2 * L - 1074) :=
    (hlow.mul hx hlow hx (by omega)).trans (add_spec hxx₀ hyy₀).2.1
  have hsum₀ := (add_spec hxx₀ hyy₀).1
  have hroot : AtMost (x * x + y * y).sqrt (U + 3) := hsum.sqrt hsum₀ (by omega) (by omega)
  have hroot' : AtLeast (x * x + y * y).sqrt L := hsum'.sqrt hsum hsum₀ (by omega)
  unfold correctedLength
  generalize (x * x + y * y).sqrt = h at hroot hroot'
  dsimp only
  have hdouble : AtMost (2.0 * h) (U + 6) := htwo'.mul hroot (by omega) (by omega)
  have hdouble' : AtLeast (2.0 * h) (L + 1) := htwo.mul htwo' hroot' hroot (by omega)
  have hx' : AtMost x (U + 3) := hx.mono (by omega)
  have hy' : AtMost y (U + 3) := hy.mono (by omega)
  refine AtMost.sub (t := V - 2) (hroot.mono (by omega)) ?_ (by omega) hrange
  refine AtMost.div (t := 2 * U - 1057) ?_ hdouble' hdouble (by omega) (by omega) (by omega)
  split
  · have hd : AtMost (h - y) (U + 5) := hroot.sub hy' (by omega) (by omega)
    have hleft : AtMost (x * (2.0 * (h - y) - x)) (2 * U - 1062) :=
      hx.mul (u := U + 10) ((htwo'.mul hd (by omega) (by omega) : AtMost _ (U + 8)).sub
        (hx.mono (by omega)) (by omega) (by omega)) (by omega) (by omega)
    have hgap : AtMost (2.0 * (x - y)) (U + 5) :=
      htwo'.mul (hx.sub hy (v := U + 2) (by omega) (by omega)) (by omega) (by omega)
    have hright : AtMost ((h - y - 2.0 * (x - y)) * (h - y)) (2 * U - 1060) :=
      (hd.sub hgap (v := U + 7) (by omega) (by omega)).mul hd (by omega) (by omega)
    exact (hleft.mono (by omega)).add (hright.mono le_rfl) (by omega) (by omega)
  · have hd : AtMost (h - x) (U + 5) := hroot.sub hx' (by omega) (by omega)
    have hleft : AtMost (2.0 * (h - x) * (x - 2.0 * y)) (2 * U - 1059) := by
      refine AtMost.mul (t := U + 8) (u := U + 5) (htwo'.mul hd (by omega) (by omega)) ?_ (by omega) (by omega)
      exact hx'.sub (htwo'.mul hy (by omega) (by omega)) (by omega) (by omega)
    have hquarter : AtMost ((4.0 * (h - x) - y) * y) (2 * U - 1061) := by
      refine AtMost.mul (t := U + 11) ?_ hy (by omega) (by omega)
      exact AtMost.sub (t := U + 9) (hfour.mul hd (by omega) (by omega)) (hy.mono (by omega)) (by omega)
        (by omega)
    have hsquare : AtMost ((h - x) * (h - x)) (2 * U - 1061) := hd.mul hd (by omega) (by omega)
    exact hleft.add (hquarter.add hsquare (by omega) (by omega)) (by omega) (by omega)

/-! ## Lengths -/

section Ordered

variable {x y : Float} {t : ℕ}

/-- The length of a vector whose smaller coordinate counts, and is so small that both are scaled up. -/
theorem scaledLength_atMost (hle : magnitude y.toModel.unpack ≤ magnitude x.toModel.unpack)
    (hx : AtMost x t) (hpos : ¬Vanishes x) (hsmall : AtMost x 670) :
    AtMost (correctedLength (x / lengthScale) (y / lengthScale) * lengthScale) (t + 27) := by
  obtain ⟨l, hlow, hhigh, -, hleast⟩ := hx.exists_binade hpos
  have hscale : AtLeast lengthScale 474 := magnitude_lengthScale.ge
  have hscale' : AtMost lengthScale 474 := magnitude_lengthScale.le
  have hlt := hleast t hx
  have hl := hleast 670 hsmall
  have hx' : AtMost (x / lengthScale) (l + 602) := hhigh.div hscale hscale' (by omega) (by omega) (by omega)
  have hy' : AtMost (y / lengthScale) (l + 602) :=
    AtMost.div (t := l + 1) (hle.trans hhigh) hscale hscale' (by omega) (by omega) (by omega)
  have hlow' : AtLeast (x / lengthScale) (l + 599) := hlow.div hhigh hscale hscale' (by omega)
  have hlength : AtMost (correctedLength (x / lengthScale) (y / lengthScale)) (l + 625) :=
    correctedLength_atMost hlow' hx' hy' (by omega) (by omega) (by omega) (by omega) (by omega)
  exact (hlength.mul hscale' (v := l + 27) (by omega) (by omega)).mono (by omega)

theorem vanishes_iff_magnitude : Vanishes x ↔ magnitude x.toModel.unpack = 0 := by
  have hstored : Stored x.toModel.unpack := stored_unpack x
  unfold Vanishes
  generalize x.toModel.unpack = u at hstored
  cases u with
  | zero s => exact iff_of_true ⟨s, rfl⟩ rfl
  | finite s m e hm =>
    refine iff_of_false (by simp) fun h => ?_
    rw [magnitude, Nat.cast_eq_zero] at h
    exact (Nat.mul_pos hm (by positivity)).ne' h
  | _ => exact iff_of_false (by simp) (by simp [magnitude])

theorem orderedLength_atMost (hx₀ : Nonnegative x.toModel.unpack) (hy₀ : Nonnegative y.toModel.unpack)
    (hle : magnitude y.toModel.unpack ≤ magnitude x.toModel.unpack) (hx : AtMost x t) (ht : t ≤ 1100) :
    AtMost (orderedLength x y) (t + 27) := by
  have hsum : AtMost (x + y) (t + 27) := hx.add (hle.trans hx) (by omega) (by omega)
  have hlarge₀ : Nonnegative largeCoordinate.toModel.unpack := trivial
  have hsmall₀ : Nonnegative smallCoordinate.toModel.unpack := trivial
  have hlarge : ¬x > largeCoordinate := by
    rw [gt_iff_lt, lt_iff_magnitude hlarge₀ hx₀, not_lt, magnitude_largeCoordinate]
    exact hx.mono (by omega)
  unfold orderedLength
  rw [if_neg hlarge]
  split
  · next hsmall =>
    split
    · exact hsum
    · next hcounts =>
      have hepsilon : AtLeast lengthEpsilon 1020 := magnitude_lengthEpsilon.ge
      have hepsilon' : AtMost lengthEpsilon 1020 := magnitude_lengthEpsilon.le
      have hy : AtMost y 615 := by
        rw [lt_iff_magnitude hy₀ hsmall₀, magnitude_smallCoordinate] at hsmall
        exact hsmall.le
      have hquotient : AtMost (y / lengthEpsilon) 670 :=
        hy.div hepsilon hepsilon' (by omega) (by omega) (by omega)
      have hepsilon₀ : lengthEpsilon.toModel.unpack = .finite .positive (2 ^ 52) (-106) (by decide) := rfl
      have hquotient₀ : Nonnegative (y / lengthEpsilon).toModel.unpack :=
        (div_spec (j := 0) hy₀ hepsilon₀ (by decide)).1
      rw [ge_iff_le, le_iff_magnitude hquotient₀ hx₀, not_le] at hcounts
      refine scaledLength_atMost hle hx (fun hzero => ?_) (hcounts.le.trans hquotient)
      have hy' : Vanishes y := by
        rw [vanishes_iff_magnitude] at hzero ⊢
        exact le_bot_iff.mp (hle.trans_eq hzero)
      exact absurd (vanishes_iff_magnitude.mp (hy'.div hepsilon hepsilon') ▸ hcounts) not_lt_bot
  · next hmoderate =>
    split
    · exact hsum
    · have hy : AtLeast y 615 := by
        rw [lt_iff_magnitude hy₀ hsmall₀, not_lt, magnitude_smallCoordinate] at hmoderate
        exact hmoderate
      have hx' : AtLeast x 615 := hy.trans hle
      obtain ⟨l, hlow, hhigh, hmost, hleast⟩ := hx.exists_binade hx'.not_vanishes
      have hl := hmost 615 hx'
      have hlt := hleast t hx
      exact (correctedLength_atMost (V := l + 22) hlow hhigh (hle.trans hhigh) (by omega) (by omega)
        (by omega) (by omega) (by omega)).mono (by omega)

end Ordered

theorem abs_spec {x : Float} {t : ℕ} (h : AtMost x t) :
    Nonnegative x.abs.toModel.unpack ∧ magnitude x.abs.toModel.unpack = magnitude x.toModel.unpack := by
  have habs : x.abs.toModel.unpack = stored (UnpackedFloat.abs x.toModel.unpack) := rfl
  rcases h.cases with ⟨s, hx⟩ | ⟨s, m, e, hm, hx, hc, -⟩
  · rw [habs, hx]
    cases s <;> exact ⟨trivial, rfl⟩
  · have hself : stored (.finite .positive m e hm) = .finite .positive m e hm := by
      rw [stored, unpack_pack hm hc, if_neg (exponent_le hx).not_gt]
    rw [habs, hx]
    change Nonnegative (stored (.finite .positive m e hm)) ∧
      magnitude (stored (.finite .positive m e hm)) = _
    rw [hself]
    exact ⟨trivial, rfl⟩

/-- The length of a vector is at most a fixed multiple of a bound on its coordinates. -/
theorem hypot_atMost {x y : Float} {t : ℕ} (hx : AtMost x t) (hy : AtMost y t) (ht : t ≤ 1100) :
    AtMost (hypot x y) (t + 27) := by
  obtain ⟨hx₀, hx'⟩ := abs_spec hx
  obtain ⟨hy₀, hy'⟩ := abs_spec hy
  have hx : AtMost x.abs t := hx'.trans_le hx
  have hy : AtMost y.abs t := hy'.trans_le hy
  have hfinite : ∀ {z : Float}, AtMost z t → z.isInf = false ∧ z.isNaN = false := by
    intro z hz
    have hinf : z.isInf = z.toModel.unpack.isInf := rfl
    have hnan : z.isNaN = z.toModel.unpack.isNaN := rfl
    rw [hinf, hnan]
    rcases hz.cases with ⟨s, hz⟩ | ⟨s, m, e, hm, hz, -⟩ <;> rw [hz] <;> exact ⟨rfl, rfl⟩
  unfold hypot
  simp only [hfinite hx, hfinite hy, Bool.or_self, Bool.false_eq_true, if_false]
  split
  · next hlt =>
    rw [lt_iff_magnitude hx₀ hy₀] at hlt
    exact orderedLength_atMost hy₀ hx₀ hlt.le hy ht
  · next hge =>
    rw [lt_iff_magnitude hx₀ hy₀, not_lt] at hge
    exact orderedLength_atMost hx₀ hy₀ hge hx ht

end QubitPulse.Double
