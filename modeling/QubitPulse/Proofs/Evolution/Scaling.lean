import QubitPulse.Proofs.Evolution.Halvings
import QubitPulse.Proofs.Evolution.Totality

/-!
# The range of the matrix exponential

A matrix of doubles that is divided by a power of two in the range keeps some entry. Divided by infinity it has
only zeros left. They add nothing to the identity, which stays what it is however often it is squared.
-/
namespace QubitPulse
open Float.Model Float.Model.UnpackedFloat Double

namespace Operator

/-! ## The scaled matrix -/

/-- Every entry is a zero, of either sign. -/
def Vanishing (a : Operator Float) : Prop :=
  ∀ i < a.rows, ∀ j < a.cols, (a.entry i j).isZero = true

theorem isZero_iff {z : Amplitude Float} : z.isZero = true ↔ Vanishes z.re ∧ Vanishes z.im := by
  rw [vanishes_iff, vanishes_iff]
  exact Bool.and_eq_true_iff

theorem isFinite_iff {a : Operator Float} :
    a.isFinite = true ↔ ∀ i < a.rows, ∀ j < a.cols, (a.entry i j).isFinite = true := by
  unfold isFinite
  rw [Array.all_eq_true]
  constructor
  · intro h i hi j hj
    have hk : i * a.cols + j < a.entries.size := a.size_eq ▸ Grid.index_lt hi hj
    simpa [entry, Grid.getD, hj, hk] using h _ hk
  · intro h k hk
    obtain ⟨i, hi, j, hj, rfl⟩ := Grid.exists_position (a.size_eq ▸ hk)
    simpa [entry, Grid.getD, hj, hk] using h i hi j hj

section Scaled

variable {a : Operator Float}

theorem entry_halved {i j : ℕ} (hi : i < a.rows) (hj : j < a.cols) :
    (halved a).entry i j = (a.entry i j).divReal (twoPow (halvings (oneNorm a))) :=
  entry_map _ hi hj

/-- Something is left of a matrix that is divided by a power of two in the range. -/
theorem not_vanishing_halved (hfinite : a.isFinite = true) (h : (seriesNorm : Float) < oneNorm a)
    (hs : halvings (oneNorm a) ≤ 1023) : ¬(halved a).Vanishing := by
  intro hzero
  have hentries : ∀ i < a.rows, ∀ j < a.cols,
      AtMost (a.entry i j).re (halvings (oneNorm a) + 1) ∧
        AtMost (a.entry i j).im (halvings (oneNorm a) + 1) := by
    intro i hi j hj
    have hparts := isZero_iff.mp (hzero i hi j hj)
    rw [entry_halved hi hj] at hparts
    obtain ⟨hre, him⟩ := Bool.and_eq_true_iff.mp (isFinite_iff.mp hfinite i hi j hj)
    exact ⟨atMost_of_vanishing_quotient hre (by omega) hparts.1,
      atMost_of_vanishing_quotient him (by omega) hparts.2⟩
  have hupper := oneNorm_lt (by omega) hentries
  have hlower := atLeast_of_halvings (nonnegative_oneNorm a) h hs
  have hpow := Nat.cast_lt.mp (hlower.trans_lt hupper)
  have := (Nat.pow_lt_pow_iff_right (by norm_num)).mp hpow
  omega

/-- Nothing is left of a matrix that is divided by infinity. -/
theorem vanishing_halved (hfinite : a.isFinite = true) (hs : 1024 ≤ halvings (oneNorm a)) :
    (halved a).Vanishing := by
  intro i hi j hj
  obtain ⟨hre, him⟩ := Bool.and_eq_true_iff.mp (isFinite_iff.mp hfinite i hi j hj)
  rw [entry_halved (a := a) hi hj, isZero_iff]
  exact ⟨vanishes_div_infinite hre (twoPow_eq_infinite hs), vanishes_div_infinite him (twoPow_eq_infinite hs)⟩

end Scaled

/-! ## Products with the identity -/

/-- The amplitudes that are zero. -/
def zeros : List (Amplitude Float) := [⟨0.0, 0.0⟩, ⟨0.0, -0.0⟩, ⟨-0.0, 0.0⟩, ⟨-0.0, -0.0⟩]

/-- One times an amplitude, as an entry of a product is summed. -/
def timesOne (w : Amplitude Float) : Amplitude Float :=
  (Amplitude.mk (Scalar.mulAdd (-Scalar.zero) w.im (Scalar.mulAdd Scalar.one w.re Scalar.zero))
    (Scalar.mulAdd Scalar.zero w.re (Scalar.mulAdd Scalar.one w.im Scalar.zero))).settled

theorem zeros_spec : ∀ w ∈ zeros, ((timesOne w).divReal (Scalar.ofNat 1)).isZero = true ∧
    w.norm = Scalar.zero ∧ .one + w = .one ∧ .zero + w = .zero := by
  decide +kernel

theorem timesOne_spec : timesOne .one = .one ∧ timesOne .zero = .zero := ⟨rfl, rfl⟩

theorem isZero_iff_mem {z : Amplitude Float} : z.isZero = true ↔ z ∈ zeros := by
  have hparts : ∀ {x : Float}, Vanishes x → x = 0.0 ∨ x = -0.0 := by
    rintro x ⟨s, hx⟩
    cases s with
    | positive => exact .inl (ext_unpack (y := 0.0) hx)
    | negative => exact .inr (ext_unpack (y := -0.0) hx)
  constructor
  · obtain ⟨re, im⟩ := z
    rw [isZero_iff]
    rintro ⟨hre, him⟩
    rcases hparts hre with rfl | rfl <;> rcases hparts him with rfl | rfl <;> simp [zeros]
  · have hzeros : ∀ w ∈ zeros, w.isZero = true := by decide
    exact hzeros z

/-- The row of an identity has one term. -/
theorem rowTerms_identity {n i : ℕ} (hi : i < n) :
    (identity n : Operator Float).rowTerms false i = [(i, .one)] := by
  have hfirst : ∀ m ≤ n, (List.range m).filterMap (fun k =>
      let z := (identity n : Operator Float).entry i k
      if false || !z.isZero then some (k, z) else none) = if i < m then [(i, .one)] else [] := by
    intro m
    induction m with
    | zero => exact fun _ => rfl
    | succ m ih =>
      intro hm
      have hentry : (identity n : Operator Float).entry i m = if i = m then .one else .zero :=
        entry_ofFn _ hi (by omega)
      have hone : (Amplitude.one : Amplitude Float).isZero = false := rfl
      have hzero : (Amplitude.zero : Amplitude Float).isZero = true := rfl
      rw [List.range_succ, List.filterMap_append, ih (by omega)]
      rcases lt_trichotomy i m with hlt | rfl | hgt
      · simp [hentry, hlt, hlt.ne, hzero, Nat.lt_succ_of_lt hlt]
      · simp [hentry, hone]
      · simp [hentry, hgt.not_gt, hgt.ne', hzero, hgt]
  exact (hfirst n le_rfl).trans (if_pos hi)

theorem entry_identity_mul {n i j : ℕ} {b : Operator Float} (hb : b.isFinite = true) (hi : i < n)
    (hj : j < b.cols) : ((identity n).mul b).entry i j = timesOne (b.entry i j) := by
  have hrow : (Array.ofFn (n := n) fun i => (identity n : Operator Float).rowTerms (!b.isFinite) i).getD i [] =
      [(i, .one)] := by
    rw [hb]
    simp [Array.getD, hi, rowTerms_identity]
  refine (entry_ofFn _ hi hj).trans ?_
  change addTerms b j ((Array.ofFn (n := n) fun i => (identity n).rowTerms (!b.isFinite) i).getD i []) _ _ = _
  rw [hrow]
  rfl

theorem identity_mul_identity (n : ℕ) : (identity n : Operator Float).mul (identity n) = identity n := by
  have hentry : ∀ i < n, ∀ j < n, (identity n : Operator Float).entry i j = if i = j then .one else .zero :=
    fun i hi j hj => entry_ofFn _ hi hj
  have hfinite : (identity n : Operator Float).isFinite = true := by
    refine isFinite_iff.mpr fun i hi j hj => ?_
    rw [hentry i hi j hj]
    split_ifs <;> rfl
  refine ext_of_entry rfl rfl fun i hi j hj => ?_
  rw [entry_identity_mul (n := n) hfinite hi hj, hentry i hi j hj]
  split_ifs
  · exact timesOne_spec.1
  · exact timesOne_spec.2

/-- The identity stays what it is however often it is squared. -/
theorem squareTimes_identity (n k : ℕ) : squareTimes k (identity n : Operator Float) = identity n := by
  induction k with
  | zero => rfl
  | succ k ih => rw [squareTimes, identity_mul_identity, ih]

section Vanishing

variable {b : Operator Float}

theorem Vanishing.isFinite (h : b.Vanishing) : b.isFinite = true := by
  refine isFinite_iff.mpr fun i hi j hj => ?_
  obtain ⟨hre, him⟩ := isZero_iff.mp (h i hi j hj)
  exact Bool.and_eq_true_iff.mpr ⟨hre.isFinite, him.isFinite⟩

theorem Vanishing.oneNorm_eq (h : b.Vanishing) : oneNorm b = Scalar.zero := by
  have hsum : ∀ j < b.cols, ∀ n ≤ b.rows,
      Scalar.sumTo n (fun i => (b.entry i j).norm) = (Scalar.zero : Float) := by
    intro j hj n
    induction n with
    | zero => exact fun _ => rfl
    | succ n ih =>
      intro hn
      have hterm := (zeros_spec _ (isZero_iff_mem.mp (h n (by omega) j hj))).2.1
      have hadd : (Scalar.zero : Float) + Scalar.zero = Scalar.zero := rfl
      change Scalar.sumTo n (fun i => (b.entry i j).norm) + (b.entry n j).norm = _
      rw [ih (by omega), hterm, hadd]
  rcases maximum_eq_zero_or_mem ((List.range b.cols).map fun j =>
    Scalar.sumTo b.rows fun i => (b.entry i j).norm) with hzero | hmem
  · exact hzero
  · obtain ⟨j, hj, heq⟩ := List.mem_map.mp hmem
    exact heq.symm.trans (hsum j (List.mem_range.mp hj) b.rows le_rfl)

theorem Vanishing.seriesTerm_one (h : b.Vanishing) : (seriesTerm b 1).Vanishing := by
  intro i hi j hj
  have hterm := entry_map (a := (identity b.rows).mul b) (·.divReal (Scalar.ofNat 1)) hi hj
  change ((seriesTerm b 1).entry i j).isZero = true
  refine (congrArg Amplitude.isZero hterm).trans ?_
  rw [entry_identity_mul (n := b.rows) h.isFinite hi hj]
  exact (zeros_spec _ (isZero_iff_mem.mp (h i hi j hj))).1

theorem Vanishing.identity_add {n : ℕ} (h : b.Vanishing) (hrows : b.rows = n) (hcols : b.cols = n) :
    (identity n).add b = identity n := by
  refine ext_of_entry rfl rfl fun i hi j hj => ?_
  have hentry : (identity n : Operator Float).entry i j = if i = j then .one else .zero := entry_ofFn _ hi hj
  have hzero := zeros_spec _ (isZero_iff_mem.mp (h i (hrows ▸ hi) j (hcols ▸ hj)))
  refine (entry_ofFn _ hi hj).trans ?_
  rw [hentry]
  split_ifs
  · exact hzero.2.2.1
  · exact hzero.2.2.2

/-- The series of a matrix of zeros ends with its first term, which adds nothing to the identity. -/
theorem Vanishing.series_eq (h : b.Vanishing) (hsquare : b.rows = b.cols) : series b = identity b.rows := by
  have hstops : StopsAt b 1 := by
    refine ⟨one_pos, ?_, fun k hk hlt => absurd hk (by omega)⟩
    rw [h.seriesTerm_one.oneNorm_eq]
    rfl
  calc series b = partialSum b 1 := seriesFrom_of_stopsAt hstops mostTerms (k := 0) one_pos (by decide)
    _ = identity b.rows := h.seriesTerm_one.identity_add rfl hsquare.symm

end Vanishing

/-! ## The exponential -/

/-- The exponential of a finite square matrix never fails. -/
theorem exp_eq_squareTimes {α : Type} [Scalar α] {a : Operator α} (hsquare : a.isSquare = true)
    (hfinite : a.isFinite = true) :
    exp a = .ok (squareTimes (halvings (oneNorm a)) (series (halved a))) := by
  have ha : (halved a).OfDim a.rows := ⟨rfl, (of_decide_eq_true hsquare).symm⟩
  have hone : (identity a.rows : Operator α).OfDim a.rows := ofDim_identity a.rows
  obtain ⟨-, hseries⟩ := seriesFromChecked_eq ha mostTerms 1 hone hone
  obtain ⟨-, hdim⟩ := squareTimesChecked_eq (halvings (oneNorm a)) hseries
  unfold exp
  rw [hsquare, hfinite]
  simp only [Bool.not_true, Bool.false_eq_true, if_false]
  split_ifs with hrows
  · refine congrArg Except.ok (ext_of_entry (hrows.symm.trans hdim.rows.symm) (hrows.symm.trans hdim.cols.symm)
      fun i hi => absurd hi i.not_lt_zero)
  · rfl

section Range

variable {a : Operator Float}

theorem scaling_in_range_iff : halvings (oneNorm a) ≤ 1023 ∧
    Scalar.isFinite (twoPow (halvings (oneNorm a))) = true ↔ oneNorm a ≤ mostScalable := by
  rw [isFinite_twoPow, and_self_iff]
  exact halvings_le_iff (nonnegative_oneNorm a)

theorem exp_eq_identity (hsquare : a.isSquare = true) (hfinite : a.isFinite = true)
    (hs : 1024 ≤ halvings (oneNorm a)) : exp a = .ok (identity a.rows) := by
  have hseries := (vanishing_halved hfinite hs).series_eq (of_decide_eq_true hsquare)
  rw [exp_eq_squareTimes hsquare hfinite, hseries]
  exact congrArg Except.ok (squareTimes_identity _ _)

/-- The exponential of a finite square matrix of doubles is that of its scaled matrix, squared as often as it was
halved. The count of halvings and the power of two are in their range just for norms up to a bound of about
`2 ^ 1022`; then a norm above one half is never scaled to nothing. A larger norm is halved 1024 times, or from
`2 ^ 1023` on as often as can be counted; each of its entries is scaled to a zero, and the result is the identity. -/
theorem exp_scaling_in_range_iff (hsquare : a.isSquare = true) (hfinite : a.isFinite = true) :
    let norm := oneNorm a
    let s := halvings norm
    exp a = .ok (squareTimes s (series (halved a))) ∧
      (s ≤ 1023 ∧ Scalar.isFinite (twoPow s) = true ↔ norm ≤ mostScalable) ∧
      (norm ≤ mostScalable → seriesNorm < norm → ¬(halved a).Vanishing) ∧
      (¬norm ≤ mostScalable → s = (if norm < twoPow 1023 then 1024 else mostDoublings) ∧
        (halved a).Vanishing ∧ exp a = .ok (identity a.rows)) := by
  intro norm s
  have hcount : s ≤ 1023 ↔ norm ≤ mostScalable := halvings_le_iff (nonnegative_oneNorm a)
  refine ⟨exp_eq_squareTimes hsquare hfinite, scaling_in_range_iff, fun hle hlarge => ?_, fun hlarge => ?_⟩
  · exact not_vanishing_halved hfinite hlarge (hcount.mpr hle)
  · have hmany : 1024 ≤ s := not_le.mp (mt hcount.mp hlarge)
    exact ⟨halvings_of_not_scalable (nonnegative_oneNorm a) hlarge, vanishing_halved hfinite hmany,
      exp_eq_identity hsquare hfinite hmany⟩

/-- One entry at the bound is still scaled by the largest power of two, and the next double is not. -/
theorem exp_scaling_at_bound :
    let a : Operator Float := ⟨1, 1, #[⟨mostScalable, 0.0⟩], rfl⟩
    let b : Operator Float := ⟨1, 1, #[⟨Float.ofBits 0x7fd00000000000b2, 0.0⟩], rfl⟩
    (a.isSquare = true ∧ a.isFinite = true ∧ halvings (oneNorm a) ≤ 1023 ∧ ¬(halved a).Vanishing) ∧
      b.isSquare = true ∧ b.isFinite = true ∧ halvings (oneNorm b) = 1024 ∧ exp b = .ok (identity 1) := by
  intro a b
  obtain ⟨hfinite, hfinite'⟩ : a.isFinite = true ∧ b.isFinite = true := by decide +kernel
  obtain ⟨-, hrange, hleft, -⟩ := exp_scaling_in_range_iff (a := a) rfl hfinite
  obtain ⟨-, -, -, hlost⟩ := exp_scaling_in_range_iff (a := b) rfl hfinite'
  obtain ⟨hlarge, ha, hb, hb'⟩ : seriesNorm < oneNorm a ∧ oneNorm a ≤ mostScalable ∧
      ¬oneNorm b ≤ mostScalable ∧ oneNorm b < twoPow 1023 := by
    decide +kernel
  obtain ⟨hcount, -, hexp⟩ := hlost hb
  exact ⟨⟨rfl, hfinite, (hrange.mpr ha).1, hleft ha hlarge⟩, rfl, hfinite',
    hcount.trans (if_pos hb'), hexp⟩

end Range

/-- One finite entry whose norm is doubled before its logarithm is taken. It is halved 1024 times, by an infinite
power of two, and its exponential is not near zero but one. -/
theorem exp_of_large_entry :
    let a : Operator Float := ⟨1, 1, #[⟨-5e307, 0.0⟩], rfl⟩
    a.isSquare = true ∧ a.isFinite = true ∧ halvings (oneNorm a) = 1024 ∧
      Scalar.isFinite (twoPow (halvings (oneNorm a))) = false ∧ (halved a).Vanishing ∧
      exp a = .ok (identity 1) := by
  intro a
  obtain ⟨hfinite, hcount⟩ : a.isFinite = true ∧ halvings (oneNorm a) = 1024 := by decide +kernel
  have hpower : Scalar.isFinite (twoPow (halvings (oneNorm a))) = false := by
    rw [hcount]
    rfl
  exact ⟨rfl, hfinite, hcount, hpower, vanishing_halved hfinite hcount.ge,
    exp_eq_identity rfl hfinite hcount.ge⟩

end Operator
end QubitPulse
