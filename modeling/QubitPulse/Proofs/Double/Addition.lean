import QubitPulse.Proofs.Double.Rounding
import QubitPulse.Scalar.Double

/-!
# Sums of doubles

Doubles that are not below zero are ordered by their magnitudes, of which infinity has the largest. Adding one
of them never leads back: the sum is not less than what it was added to, and once a sum is infinite it stays so.
-/
namespace QubitPulse.Double
open Float.Model Float.Model.UnpackedFloat

/-- A number, and not below zero. -/
def Nonnegative : UnpackedFloat → Prop
  | .zero _ => True
  | .finite .positive .. => True
  | .infinity .positive => True
  | _ => False

/-- Every finite value but zero is in canonical form. -/
def Stored (x : UnpackedFloat) : Prop := ∀ {s m e h}, x = .finite s m e h → Canonical m e

/-- Magnitude in units of the least positive double. -/
def magnitude : UnpackedFloat → ℕ∞
  | .zero _ => 0
  | .finite _ m e _ => units m e
  | .infinity _ => ⊤
  | .notANumber => ⊤

/-- Value of a sum that is packed and unpacked again. -/
def sum (x y : UnpackedFloat) : UnpackedFloat :=
  UnpackedFloat.unpack Format.binary64
    (UnpackedFloat.pack Format.binary64 (UnpackedFloat.add Format.binary64 x y))

theorem compare_ne_lt {m m' : ℕ} {e e' : ℤ} (hm : 0 < m) (hm' : 0 < m') (h : Canonical m e)
    (h' : Canonical m' e') (hle : units m' e' ≤ units m e) :
    UnpackedFloat.compare (.finite .positive m e hm) (.finite .positive m' e' hm') ≠ some .lt := by
  intro hlt
  refine (units_lt_of_lt h h' ?_).not_ge hle
  simpa [UnpackedFloat.compare, Ordering.then_eq_lt, compare_lt_iff_lt, compare_eq_iff_eq]
    using hlt

theorem add_finite {m m' : ℕ} {e e' : ℤ} (hm : 0 < m) (hm' : 0 < m') (h : Canonical m e)
    (h' : Canonical m' e') :
    ∃ n f hn, UnpackedFloat.add Format.binary64 (.finite .positive m e hm)
        (.finite .positive m' e' hm') = .finite .positive n f hn ∧ Canonical n f ∧
      units m e ≤ units n f := by
  have hleast := h.least
  have hleast' := h'.least
  simp only [UnpackedFloat.add, decreaseExponent, Sign.apply]
  have hpos : 0 < m <<< (e - min e e').toNat := by
    rw [Nat.shiftLeft_eq]
    positivity
  have hunits : units m e = units (m <<< (e - min e e').toNat) (min e e') :=
    (units_shiftLeft m (min_le_left e e') (by omega)).symm
  rw [hunits]
  generalize m <<< (e - min e e').toNat = a at hpos hunits ⊢
  generalize m' <<< (e' - min e e').toNat = b
  obtain ⟨n, f, hn, heq, hc, hle⟩ :=
    normalize_spec (m := a + b) (e := min e e') (by omega) (by omega)
  refine ⟨n, f, hn, by exact_mod_cast heq, hc, ?_⟩
  rw [← hunits]
  refine hle h ?_
  rw [hunits]
  exact Nat.mul_le_mul_right _ (Nat.le_add_right a b)

/-- A positive result is stored as it is or becomes infinite. -/
theorem stored_positive {m : ℕ} {e : ℤ} (hm : 0 < m) (h : Canonical m e) :
    UnpackedFloat.unpack Format.binary64
        (UnpackedFloat.pack Format.binary64 (.finite .positive m e hm)) = .infinity .positive ∨
      UnpackedFloat.unpack Format.binary64
        (UnpackedFloat.pack Format.binary64 (.finite .positive m e hm)) =
          .finite .positive m e hm := by
  rw [unpack_pack hm h]
  split_ifs
  · exact .inl rfl
  · exact .inr rfl

theorem Stored.zero (s : Sign) : Stored (.zero s) := fun h => by simp at h

theorem Stored.infinity (s : Sign) : Stored (.infinity s) := fun h => by simp at h

theorem Stored.finite {s : Sign} {m : ℕ} {e : ℤ} {hm : 0 < m} (hc : Canonical m e) :
    Stored (.finite s m e hm) := fun h => by
  injection h with _ hmantissa hexponent
  rwa [← hmantissa, ← hexponent]

/-- Storing a magnitude does not lower it: it is kept or becomes infinite. -/
theorem unpack_pack_nonnegative {u : UnpackedFloat} (hu : Nonnegative u) (hs : Stored u) :
    Nonnegative (UnpackedFloat.unpack Format.binary64 (UnpackedFloat.pack Format.binary64 u)) ∧
      magnitude u ≤
        magnitude (UnpackedFloat.unpack Format.binary64 (UnpackedFloat.pack Format.binary64 u)) := by
  rcases u with ⟨_ | _⟩ | _ | s | ⟨_ | _, m, e, hm⟩ <;> simp only [Nonnegative] at hu
  case infinity.positive =>
    rw [unpack_pack_infinity]
    exact ⟨trivial, le_rfl⟩
  case zero =>
    rw [unpack_pack_zero]
    exact ⟨trivial, le_rfl⟩
  case finite.positive =>
    rcases stored_positive hm (hs rfl) with h | h <;> rw [h]
    · exact ⟨trivial, le_top⟩
    · exact ⟨trivial, le_rfl⟩

theorem add_nonnegative {x y : UnpackedFloat} (hx₀ : Nonnegative x) (hy₀ : Nonnegative y) (hx : Stored x)
    (hy : Stored y) :
    Nonnegative (UnpackedFloat.add Format.binary64 x y) ∧ Stored (UnpackedFloat.add Format.binary64 x y) ∧
      magnitude x ≤ magnitude (UnpackedFloat.add Format.binary64 x y) := by
  rcases x with ⟨_ | _⟩ | _ | s | ⟨_ | _, m, e, hm⟩ <;>
    rcases y with ⟨_ | _⟩ | _ | s' | ⟨_ | _, m', e', hm'⟩ <;>
    simp only [Nonnegative] at hx₀ hy₀
  case zero.zero => cases s <;> cases s' <;> exact ⟨trivial, Stored.zero _, le_rfl⟩
  case zero.finite.positive => exact ⟨trivial, hy, bot_le⟩
  case finite.positive.zero => exact ⟨trivial, hx, le_rfl⟩
  case finite.positive.finite.positive =>
    obtain ⟨n, f, hn, heq, hc, hle⟩ := add_finite hm hm' (hx rfl) (hy rfl)
    rw [heq]
    exact ⟨trivial, Stored.finite hc, Nat.cast_le.mpr hle⟩
  all_goals exact ⟨trivial, Stored.infinity _, le_top⟩

/-- What is not less in magnitude is not less. -/
theorem compare_ne_lt_of_magnitude {x y : UnpackedFloat} (hx₀ : Nonnegative x) (hy₀ : Nonnegative y)
    (hx : Stored x) (hy : Stored y) (hle : magnitude x ≤ magnitude y) : y.compare x ≠ some .lt := by
  rcases y with ⟨_ | _⟩ | _ | s' | ⟨_ | _, m', e', hm'⟩ <;>
    rcases x with ⟨_ | _⟩ | _ | s | ⟨_ | _, m, e, hm⟩ <;>
    simp only [Nonnegative] at hx₀ hy₀
  case zero.finite.positive =>
    rw [magnitude, magnitude, ← Nat.cast_zero, Nat.cast_le] at hle
    exact absurd hle (Nat.not_le.mpr (Nat.mul_pos hm (by positivity)))
  case finite.positive.finite.positive =>
    exact compare_ne_lt hm' hm (hy rfl) (hx rfl) (Nat.cast_le.mp hle)
  all_goals simp_all [magnitude, UnpackedFloat.compare]

theorem isFinite_iff_magnitude {x : UnpackedFloat} (hx : Nonnegative x) :
    x.isFinite = true ↔ magnitude x ≠ ⊤ := by
  rcases x with ⟨_ | _⟩ | _ | s | ⟨_ | _, m, e, hm⟩ <;>
    simp_all [Nonnegative, magnitude, UnpackedFloat.isFinite]

theorem sum_spec {x y : UnpackedFloat} (hx : Stored x) (hy : Stored y) (hx₀ : Nonnegative x)
    (hy₀ : Nonnegative y) :
    Nonnegative (sum x y) ∧ (sum x y).compare x ≠ some .lt ∧
      ((sum x y).isFinite = true → x.isFinite = true) := by
  obtain ⟨hadd, hstored, hle⟩ := add_nonnegative hx₀ hy₀ hx hy
  obtain ⟨hsum, hle'⟩ := unpack_pack_nonnegative hadd hstored
  have hwhole : magnitude x ≤ magnitude (sum x y) := hle.trans hle'
  refine ⟨hsum, compare_ne_lt_of_magnitude hx₀ hsum hx (fun h => ofFields_finite h) hwhole, fun hfin => ?_⟩
  rw [isFinite_iff_magnitude hx₀]
  exact ne_top_of_le_ne_top ((isFinite_iff_magnitude hsum).mp hfin) hwhole

theorem stored_unpack (x : Float) : Stored x.toModel.unpack :=
  fun h => ofFields_finite h

theorem unpack_add (x y : Float) :
    (x + y).toModel.unpack = sum x.toModel.unpack y.toModel.unpack :=
  rfl

theorem lt_eq (x y : Float) :
    Scalar.lt x y = decide (x.toModel.unpack.compare y.toModel.unpack = some .lt) := by
  change decide (x < y) = _
  rw [decide_eq_decide]
  change decide (x.toModel.unpack.lt y.toModel.unpack = true) = true ↔ _
  simp [UnpackedFloat.lt]

theorem le_eq (x y : Float) :
    Scalar.le x y = (x.toModel.unpack.compare y.toModel.unpack).any (·.isLE) := by
  change decide (x ≤ y) = _
  rw [Bool.eq_iff_iff, decide_eq_true_iff]
  change decide (x.toModel.unpack.le y.toModel.unpack = true) = true ↔ _
  rw [decide_eq_true_iff]
  rfl

theorem nonnegative_of_isDuration {d : Float} (h : Scalar.isDuration d = true) :
    Nonnegative d.toModel.unpack := by
  simp only [Scalar.isDuration, Bool.and_eq_true, Bool.not_eq_true', lt_eq] at h
  obtain ⟨hfin, hlt⟩ := h
  replace hfin : d.toModel.unpack.isFinite = true := hfin
  generalize d.toModel.unpack = u at hlt hfin ⊢
  rw [show (Scalar.zero : Float).toModel.unpack = .zero .positive from rfl] at hlt
  rcases u with ⟨_ | _⟩ | _ | s | ⟨_ | _, m, e, hm⟩ <;>
    simp_all [Nonnegative, UnpackedFloat.compare, UnpackedFloat.isFinite]

/-- A sum with a duration is not below zero, not less than its first summand, and finite only if
that is. -/
theorem add_duration {x d : Float} (hx : Nonnegative x.toModel.unpack)
    (hd : Scalar.isDuration d = true) :
    Nonnegative (x + d).toModel.unpack ∧ Scalar.lt (x + d) x = false ∧
      (Scalar.isFinite (x + d) = true → Scalar.isFinite x = true) := by
  have hd₀ := nonnegative_of_isDuration hd
  obtain ⟨hsum, hlt, hback⟩ := sum_spec (stored_unpack x) (stored_unpack d) hx hd₀
  refine ⟨hsum, ?_, hback⟩
  rw [lt_eq, unpack_add]
  exact decide_eq_false hlt

end QubitPulse.Double
