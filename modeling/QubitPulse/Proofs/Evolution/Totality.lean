import QubitPulse.Proofs.Evolution.Application
import QubitPulse.Proofs.Evolution.Hamiltonian
import QubitPulse.Proofs.Exact.Spectators
import QubitPulse.Proofs.Storage

/-!
# What an analytical evolution refuses

An evolution adds and multiplies matrices of four sources: the controls, the Hamiltonians of the segments,
their propagators and the state. Here every sum and product of it gets a check of shapes, and the evolution
with these checks is the one without. What is left to refuse is found before the first product or in the
entries of a generator, in one order.
-/
namespace QubitPulse

variable {α : Type} [Scalar α]

namespace Operator

/-- A square operator of a dimension. -/
structure OfDim (dim : ℕ) (a : Operator α) : Prop where
  rows : a.rows = dim
  cols : a.cols = dim

variable {dim : ℕ} {a b : Operator α}

theorem ofDim_identity (dim : ℕ) : (identity dim : Operator α).OfDim dim := ⟨rfl, rfl⟩

omit [Scalar α] in
theorem OfDim.isSquare (h : a.OfDim dim) : a.isSquare = true :=
  decide_eq_true (h.rows.trans h.cols.symm)

theorem OfDim.mul (ha : a.OfDim dim) (hb : b.OfDim dim) : (a.mul b).OfDim dim := ⟨ha.rows, hb.cols⟩

theorem OfDim.generator (ha : a.OfDim dim) (dt : α) : (generator a dt).OfDim dim := ⟨ha.rows, ha.cols⟩

/-- The sum of two operators, which fails like a product if they are not of one shape. -/
def addChecked (a b : Operator α) : Result α (Operator α) :=
  if a.rows = b.rows ∧ a.cols = b.cols then .ok (a.add b) else .error .incompatibleProduct

theorem OfDim.mulChecked (ha : a.OfDim dim) (hb : b.OfDim dim) : a.mulChecked b = .ok (a.mul b) :=
  mulChecked_eq_ok (ha.cols.trans hb.rows.symm)

theorem OfDim.addChecked (ha : a.OfDim dim) (hb : b.OfDim dim) : a.addChecked b = .ok (a.add b) :=
  if_pos ⟨ha.rows.trans hb.rows.symm, ha.cols.trans hb.cols.symm⟩

/-! ## The exponential -/

/-- The rounds of the series with a check of each product and of each sum. -/
def seriesFromChecked (a : Operator α) :
    ℕ → ℕ → Operator α → Operator α → Result α (Operator α)
  | 0, _, _, total => .ok total
  | fuel + 1, k, term, total => do
    let product ← term.mulChecked a
    let next := product.divReal (Scalar.ofNat k)
    let total ← total.addChecked next
    if Scalar.lt (oneNorm next) negligible then return total
    else seriesFromChecked a fuel (k + 1) next total

/-- Squarings with a check of each of them. -/
def squareTimesChecked : ℕ → Operator α → Result α (Operator α)
  | 0, u => .ok u
  | n + 1, u => do
    let v ← u.mulChecked u
    squareTimesChecked n v

/-- The exponential with a check at each of its operations. -/
def expChecked (a : Operator α) : Result α (Operator α) :=
  if !a.isSquare then .error (.dimensionMismatch a.rows a.cols)
  else if a.rows = 0 then .ok (identity 0)
  else if !a.isFinite then .error (.solverError .nonFiniteGenerator)
  else do
    let s := halvings (oneNorm a)
    let sum ← seriesFromChecked (a.divReal (Scalar.twoPow s)) mostTerms 1 (identity a.rows)
      (identity a.rows)
    squareTimesChecked s sum

theorem seriesFromChecked_eq (ha : a.OfDim dim) (fuel k : ℕ) {term total : Operator α}
    (hterm : term.OfDim dim) (htotal : total.OfDim dim) :
    seriesFromChecked a fuel k term total = .ok (seriesFrom a fuel k term total) ∧
      (seriesFrom a fuel k term total).OfDim dim := by
  induction fuel generalizing k term total with
  | zero => exact ⟨rfl, htotal⟩
  | succ fuel ih =>
    have hproduct := hterm.mul ha
    have hnext : ((term.mul a).divReal (Scalar.ofNat k)).OfDim dim := ⟨hproduct.rows, hproduct.cols⟩
    have hsum : (total.add ((term.mul a).divReal (Scalar.ofNat k))).OfDim dim :=
      ⟨htotal.rows, htotal.cols⟩
    rw [seriesFromChecked, hterm.mulChecked ha, Result.ok_bind, seriesFrom]
    dsimp only
    rw [htotal.addChecked hnext, Result.ok_bind]
    split_ifs
    · exact ⟨rfl, hsum⟩
    · exact ih (k + 1) hnext hsum

theorem squareTimesChecked_eq (n : ℕ) {u : Operator α} (hu : u.OfDim dim) :
    squareTimesChecked n u = .ok (squareTimes n u) ∧ (squareTimes n u).OfDim dim := by
  induction n generalizing u with
  | zero => exact ⟨rfl, hu⟩
  | succ n ih =>
    rw [squareTimesChecked, hu.mulChecked hu, Result.ok_bind, squareTimes]
    exact ih (hu.mul hu)

/-- The exponential of an operator that passes its checks. -/
theorem exists_exp (ha : a.OfDim dim) (hfinite : a.isFinite = true) :
    ∃ u, exp a = .ok u ∧ expChecked a = .ok u ∧ u.OfDim dim := by
  unfold exp expChecked
  simp only [ha.isSquare, hfinite, Bool.not_true, Bool.false_eq_true, if_false]
  by_cases hrows : a.rows = 0
  · rw [if_pos hrows, if_pos hrows]
    obtain rfl : dim = 0 := ha.rows.symm.trans hrows
    exact ⟨_, rfl, rfl, ofDim_identity 0⟩
  · rw [if_neg hrows, if_neg hrows]
    have hscaled : (a.divReal (Scalar.twoPow (halvings (oneNorm a)))).OfDim dim := ⟨ha.rows, ha.cols⟩
    have hone : (identity a.rows : Operator α).OfDim dim := ⟨ha.rows, ha.rows⟩
    obtain ⟨hsum, hdim⟩ := seriesFromChecked_eq hscaled mostTerms 1 hone hone
    obtain ⟨hsquared, hdim⟩ := squareTimesChecked_eq (halvings (oneNorm a)) hdim
    refine ⟨_, rfl, ?_, hdim⟩
    rw [hsum, Result.ok_bind]
    exact hsquared

/-- An entry that is not finite is refused; an operator without rows has none. -/
theorem exp_of_not_finite (ha : a.OfDim dim) (hfinite : a.isFinite = false) :
    exp a = .error (.solverError .nonFiniteGenerator) ∧
      expChecked a = .error (.solverError .nonFiniteGenerator) := by
  have hrows : a.rows ≠ 0 := by
    intro hrows
    have hempty : a.entries = #[] := Array.eq_empty_of_size_eq_zero (by simp [a.size_eq, hrows])
    simp [isFinite, hempty] at hfinite
  unfold exp expChecked
  simp [ha.isSquare, hfinite, hrows]

theorem expChecked_eq (ha : a.OfDim dim) : expChecked a = exp a := by
  cases hfinite : a.isFinite with
  | true =>
    obtain ⟨u, hu, hchecked, -⟩ := exists_exp ha hfinite
    rw [hu, hchecked]
  | false =>
    obtain ⟨hu, hchecked⟩ := exp_of_not_finite ha hfinite
    rw [hu, hchecked]

end Operator

/-- A control that was made for a register of some size. -/
def ControlOperator.Registered (c : ControlOperator α) : Prop :=
  ∃ label matrix numQubits, ControlOperator.new label matrix numQubits = .ok c

omit [Scalar α] in
theorem ControlOperator.Registered.ofDim {c : ControlOperator α} (h : c.Registered) :
    c.matrix.OfDim c.dim := by
  obtain ⟨label, matrix, numQubits, hnew⟩ := h
  unfold ControlOperator.new at hnew
  split_ifs at hnew with hshape
  obtain rfl := Except.ok.inj hnew
  obtain ⟨hsquare, -⟩ : matrix.isSquare = true ∧ matrix.rows = registerDim numQubits := by
    simpa using hshape
  exact ⟨rfl, (of_decide_eq_true hsquare).symm⟩

namespace EvolutionProblem

/-- Adds a multiple of an operator, with a check of their shapes where something is added. -/
def addTermChecked (h : Operator α) (term : ControlOperator α × α) : Result α (Operator α) :=
  if Scalar.eq term.2 Scalar.zero then .ok h
  else if h.rows = term.1.matrix.rows ∧ h.cols = term.1.matrix.cols then .ok (addTerm h term)
  else .error .incompatibleProduct

theorem addTermChecked_eq {dim : ℕ} {h : Operator α} {term : ControlOperator α × α} (hh : h.OfDim dim)
    (hterm : term.1.matrix.OfDim dim) :
    addTermChecked h term = .ok (addTerm h term) ∧ (addTerm h term).OfDim dim := by
  obtain ⟨hrows, hcols⟩ := adds_addTerm.shape h term
  have hagree : h.rows = term.1.matrix.rows ∧ h.cols = term.1.matrix.cols :=
    ⟨hh.rows.trans hterm.rows.symm, hh.cols.trans hterm.cols.symm⟩
  refine ⟨?_, hrows.trans hh.rows, hcols.trans hh.cols⟩
  unfold addTermChecked addTerm
  rw [if_pos hagree]
  split_ifs <;> rfl

end EvolutionProblem

namespace AnalyticalEvolution

/-- The Hamiltonian of a segment with a check of each of its sums. -/
def hamiltonianChecked (p : EvolutionProblem α) (k : ℕ) : Result α (Operator α) :=
  let zero := Operator.zero p.initialState.dim p.initialState.dim
  match p.timeline.segmentCoeffs k with
  | none => .ok zero
  | some column => (p.controls.zip column).foldlM EvolutionProblem.addTermChecked zero

/-- Propagators of the segments with a check of each operation. -/
def propagatorsFromChecked (p : EvolutionProblem α) : ℕ → List α → Result α (List (Operator α))
  | _, [] => .ok []
  | k, dt :: rest => do
    let h ← hamiltonianChecked p k
    let u ← Operator.expChecked (Operator.generator h dt)
    let us ← propagatorsFromChecked p (k + 1) rest
    return u :: us

/-- Product of propagators with a check of each factor. -/
def timeOrderedChecked (dim : ℕ) (us : List (Operator α)) : Result α (Operator α) :=
  us.foldlM (fun total u => u.mulChecked total) (Operator.identity dim)

/-- The evolution with a check of shapes at every sum and product of matrices. -/
def computeChecked (controls : List (ControlOperator α)) (timeline : Timeline α) (initial : State α)
    (globalPhase : α) : Result α (AnalyticalEvolution α) :=
  if timeline.interpolation ≠ .step then
    .error (.invalidPulse (.notSteps timeline.interpolation))
  else do
    timeline.checkControls controls.length
    match misfit? controls initial.dim with
    | some c => .error (.dimensionMismatch initial.dim c.dim)
    | none => do
      Storage.reserve 2 [initial.dim, initial.dim]
      let us ← propagatorsFromChecked ⟨controls, timeline, [], initial⟩ 0 timeline.durations
      let product ← timeOrderedChecked initial.dim us
      let total := product.scale (Amplitude.ofPhase globalPhase)
      let final ← initial.evolveChecked total
      return ⟨us, globalPhase, total, final⟩

variable {p : EvolutionProblem α}

theorem ofDim_hamiltonian (p : EvolutionProblem α) (k : ℕ) :
    (hamiltonian p k).OfDim p.initialState.dim := by
  unfold hamiltonian EvolutionProblem.segmentHamiltonian?
  cases p.timeline.segmentCoeffs k with
  | none => exact ⟨rfl, rfl⟩
  | some column =>
    obtain ⟨hrows, hcols⟩ :=
      EvolutionProblem.shape_weightedSum p.initialState.dim (p.controls.zip column)
    exact ⟨hrows, hcols⟩

theorem hamiltonianChecked_eq (h : ∀ c ∈ p.controls, c.matrix.OfDim p.initialState.dim) (k : ℕ) :
    hamiltonianChecked p k = .ok (hamiltonian p k) := by
  unfold hamiltonianChecked hamiltonian EvolutionProblem.segmentHamiltonian?
  cases p.timeline.segmentCoeffs k with
  | none => rfl
  | some column =>
    have hstep : ∀ (b : Operator α) (x : ControlOperator α × α), b.OfDim p.initialState.dim →
        x ∈ p.controls.zip column → EvolutionProblem.addTermChecked b x =
          .ok (EvolutionProblem.addTerm b x) ∧
          (EvolutionProblem.addTerm b x).OfDim p.initialState.dim := fun b x hb hx =>
      EvolutionProblem.addTermChecked_eq hb (h x.1 (List.of_mem_zip hx).1)
    exact (Result.foldlM_eq_foldl _ hstep ⟨rfl, rfl⟩).1

theorem propagatorsFromChecked_eq (h : ∀ c ∈ p.controls, c.matrix.OfDim p.initialState.dim) (k : ℕ)
    (dts : List α) :
    propagatorsFromChecked p k dts = propagatorsFrom Operator.propagator p k dts := by
  induction dts generalizing k with
  | nil => rfl
  | cons dt rest ih =>
    rw [propagatorsFromChecked, hamiltonianChecked_eq h, Result.ok_bind,
      Operator.expChecked_eq ((ofDim_hamiltonian p k).generator dt), ih]
    rfl

theorem timeOrderedChecked_eq {dim : ℕ} {us : List (Operator α)} (h : ∀ u ∈ us, u.OfDim dim) :
    timeOrderedChecked dim us = .ok (timeOrdered dim us) ∧ (timeOrdered dim us).OfDim dim :=
  Result.foldlM_eq_foldl (Operator.OfDim dim)
    (fun _ u hb hu => ⟨(h u hu).mulChecked hb, (h u hu).mul hb⟩) (Operator.ofDim_identity dim)

/-! ## Generators of the segments -/

/-- What is exponentiated on each segment. -/
def generators (p : EvolutionProblem α) : List (Operator α) :=
  p.timeline.durations.zipIdx.map fun segment =>
    Operator.generator (hamiltonian p segment.2) segment.1

theorem propagatorsFrom_eq_mapM (propagate : Propagation α) (p : EvolutionProblem α) (k : ℕ)
    (dts : List α) : propagatorsFrom propagate p k dts =
      (dts.zipIdx k).mapM fun segment => propagate (hamiltonian p segment.2) segment.1 := by
  induction dts generalizing k with
  | nil => rfl
  | cons dt rest ih => rw [propagatorsFrom, ih, List.zipIdx_cons, List.mapM_cons]

theorem propagatorsFrom_propagator (p : EvolutionProblem α) :
    propagatorsFrom Operator.propagator p 0 p.timeline.durations = (generators p).mapM Operator.exp := by
  rw [propagatorsFrom_eq_mapM, generators, List.mapM_map]
  rfl

theorem length_generators (p : EvolutionProblem α) : (generators p).length = p.timeline.numSegments := by
  rw [generators, List.length_map, List.length_zipIdx, Timeline.length_durations]

theorem ofDim_generators : ∀ g ∈ generators p, g.OfDim p.initialState.dim := by
  intro g hg
  obtain ⟨segment, -, rfl⟩ := List.mem_map.mp hg
  exact (ofDim_hamiltonian p segment.2).generator segment.1

theorem exists_propagators (h : (generators p).all Operator.isFinite = true) :
    ∃ us, (generators p).mapM Operator.exp = .ok us ∧ ∀ u ∈ us, u.OfDim p.initialState.dim :=
  Result.exists_mapM_forall fun g hg =>
    have ⟨u, hu, _, hdim⟩ := Operator.exists_exp (ofDim_generators g hg) (List.all_eq_true.mp h g hg)
    ⟨u, hu, hdim⟩

theorem propagators_of_not_finite (h : (generators p).all Operator.isFinite = false) :
    (generators p).mapM Operator.exp = .error (.solverError .nonFiniteGenerator) := by
  refine Result.mapM_eq_error (fun g hg => ?_) ?_
  · cases hfinite : g.isFinite with
    | true =>
      obtain ⟨u, hu, -⟩ := Operator.exists_exp (ofDim_generators g hg) hfinite
      exact .inr ⟨u, hu⟩
    | false => exact .inl (Operator.exp_of_not_finite (ofDim_generators g hg) hfinite).1
  · obtain ⟨g, hg, hfinite⟩ := List.all_eq_false.mp h
    rw [Bool.not_eq_true] at hfinite
    exact ⟨g, hg, (Operator.exp_of_not_finite (ofDim_generators g hg) hfinite).1⟩

/-! ## The order of refusals -/

section Refusals

variable (controls : List (ControlOperator α)) (t : Timeline α) (initial : State α)

/-- What an evolution refuses, in the order in which it does. -/
def refusals : List (Option (Error α)) :=
  [if t.interpolation = .step then none else some (.invalidPulse (.notSteps t.interpolation)),
    if t.numControls = controls.length then none
      else some (.shapeMismatch (.coefficientRows controls.length t.numControls)),
    (misfit? controls initial.dim).map fun c => .dimensionMismatch initial.dim c.dim,
    if 16 * (initial.dim * initial.dim) ≤ Word.mostBytes then none else some .tooLarge,
    if (generators ⟨controls, t, [], initial⟩).all Operator.isFinite then none
      else some (.solverError .nonFiniteGenerator),
    if initial.isSquare then none else some (.dimensionMismatch initial.dim initial.dim)]

/-- An evolution of a state along a timeline: one propagator for every segment, and their product in time
order with the phase, applied to the state. -/
structure Evolves (phase : α) (e : AnalyticalEvolution α) : Prop where
  globalPhase : e.globalPhase = phase
  count : e.propagators.length = t.breakpoints.length - 1
  propagators : List.Forall₂ (fun g u => Operator.exp g = .ok u) (generators ⟨controls, t, [], initial⟩)
    e.propagators
  total : e.total = totalOf initial.dim phase e.propagators
  finalState : initial.evolve e.total = .ok e.finalState

variable {controls t initial}

omit [Scalar α] in
theorem error?_checkControls : Result.error? (t.checkControls controls.length) =
    if t.numControls = controls.length then none
      else some (.shapeMismatch (.coefficientRows controls.length t.numControls)) := by
  unfold Timeline.checkControls
  split_ifs <;> simp_all [Result.error?]

omit [Scalar α] in
theorem error?_reserve (d : ℕ) : Result.error? (Storage.reserve 2 [d, d] : Result α Unit) =
    if 16 * (d * d) ≤ Word.mostBytes then none else some .tooLarge := by
  unfold Storage.reserve
  rw [Storage.fits_square]
  by_cases hroom : 16 * (d * d) ≤ Word.mostBytes <;> simp [hroom, Result.error?]

/-- With propagators at hand only the form of the state is left to refuse. -/
theorem error?_evolve {u : Operator α} (hu : u.OfDim initial.dim) : Result.error? (initial.evolve u) =
    if initial.isSquare then none else some (.dimensionMismatch initial.dim initial.dim) := by
  by_cases hsquare : initial.isSquare = true
  · obtain ⟨final, hfinal⟩ := State.exists_evolve hsquare hu.rows hu.cols
    rw [hfinal, if_pos hsquare]
    rfl
  · have hfit : ¬initial.Fits u.rows := fun h =>
      hsquare (State.checkDim_eq_ok.mp (State.checkDim_eq_ok_iff_fits.mpr h)).1
    rw [State.evolve_of_not_fits hfit, if_neg hsquare, hu.rows]
    rfl

theorem ofDim_totalOf {us : List (Operator α)} (h : ∀ u ∈ us, u.OfDim initial.dim) (phase : α) :
    (totalOf initial.dim phase us).OfDim initial.dim :=
  have hdim := (timeOrderedChecked_eq h).2
  ⟨hdim.rows, hdim.cols⟩

/-- The run along the segments, once the controls fit and there is room. -/
theorem error?_segments (controls : List (ControlOperator α)) (t : Timeline α) (initial : State α)
    (phase : α) : Result.error? (do
      let us ← propagatorsFrom Operator.propagator ⟨controls, t, [], initial⟩ 0 t.durations
      let final ← initial.evolve (totalOf initial.dim phase us)
      return (⟨us, phase, totalOf initial.dim phase us, final⟩ : AnalyticalEvolution α)) =
    (if (generators ⟨controls, t, [], initial⟩).all Operator.isFinite then none
      else some (.solverError .nonFiniteGenerator)).or
      (if initial.isSquare then none else some (.dimensionMismatch initial.dim initial.dim)) := by
  rw [propagatorsFrom_propagator]
  cases hfinite : (generators ⟨controls, t, [], initial⟩).all Operator.isFinite with
  | true =>
    obtain ⟨us, hus, hdim⟩ := exists_propagators hfinite
    rw [hus, Result.ok_bind, if_pos rfl, Option.none_or, ← error?_evolve (ofDim_totalOf hdim phase)]
    cases initial.evolve (totalOf initial.dim phase us) <;> rfl
  | false =>
    rw [propagators_of_not_finite hfinite]
    rfl

/-- An evolution fails as the first of its refusals says, if there is one. -/
theorem error?_compute (phase : α) : Result.error? (compute controls t initial phase) =
    (refusals controls t initial).findSome? id := by
  unfold compute computeWith refusals
  by_cases hstep : t.interpolation = .step
  · rw [if_neg (not_not.mpr hstep), if_pos hstep, Result.error?_check, error?_checkControls]
    simp only [Result.findSome?_cons, Option.none_or]
    cases misfit? controls initial.dim with
    | some c => simp [Result.error?]
    | none =>
      dsimp only
      rw [Result.error?_check, error?_reserve]
      have hsegments := error?_segments controls t initial phase
      simp only [totalOf] at hsegments
      rw [hsegments]
      simp
  · rw [if_pos hstep, if_neg hstep]
    rfl

/-- On controls of registers no check of shapes fails. -/
theorem computeChecked_eq (h : ∀ c ∈ controls, c.Registered) (t : Timeline α) (initial : State α)
    (phase : α) : computeChecked controls t initial phase = compute controls t initial phase := by
  unfold computeChecked compute computeWith
  by_cases hstep : t.interpolation = .step
  · rw [if_neg (not_not.mpr hstep), if_neg (not_not.mpr hstep)]
    cases hmisfit : misfit? controls initial.dim with
    | some c => rfl
    | none =>
      -- Only now are the dimensions of the controls known, and with them those of all that follows.
      have hdim : ∀ c ∈ controls, c.matrix.OfDim initial.dim := fun c hc =>
        misfit?_eq_none.mp hmisfit c hc ▸ (h c hc).ofDim
      dsimp only
      rw [propagatorsFromChecked_eq hdim, propagatorsFrom_propagator]
      cases hfinite : (generators ⟨controls, t, [], initial⟩).all Operator.isFinite with
      | true =>
        obtain ⟨us, hus, hfits⟩ := exists_propagators hfinite
        simp only [hus, Result.ok_bind, (timeOrderedChecked_eq hfits).1, State.evolveChecked_eq]
      | false => simp only [propagators_of_not_finite hfinite]; rfl
  · rw [if_pos hstep, if_pos hstep]

theorem evolves_of_compute {phase : α} {e : AnalyticalEvolution α}
    (h : compute controls t initial phase = .ok e) : Evolves controls t initial phase e := by
  obtain ⟨-, -, -, -, us, final, hus, hfinal, rfl⟩ := computeWith_eq_ok.mp h
  rw [propagatorsFrom_propagator] at hus
  have hpropagators := Result.mapM_eq_ok.mp hus
  exact ⟨rfl, hpropagators.length_eq.symm.trans (length_generators _), hpropagators, rfl, hfinal⟩

theorem hamiltonian_of_cols_le {k : ℕ} (h : t.coeffs.cols ≤ k) :
    hamiltonian ⟨controls, t, [], initial⟩ k = Operator.zero initial.dim initial.dim := by
  have hcolumn : t.segmentCoeffs k = none := if_neg (not_lt.mpr h)
  unfold hamiltonian EvolutionProblem.segmentHamiltonian?
  simp only [hcolumn, Option.map_none, Option.getD_none]

/-- With controls of registers an evolution along any timeline of any state never adds or multiplies matrices
whose shapes disagree. It fails as the first of its refusals says, and evolves the state if there is none; a
segment without coefficients has no Hamiltonian. -/
theorem compute_refuses_in_order (h : ∀ c ∈ controls, c.Registered) (t : Timeline α) (initial : State α)
    (phase : α) :
    computeChecked controls t initial phase = compute controls t initial phase ∧
      Result.error? (compute controls t initial phase) = (refusals controls t initial).findSome? id ∧
      ((refusals controls t initial).findSome? id = none →
        ∃ e, compute controls t initial phase = .ok e ∧ Evolves controls t initial phase e) ∧
      ∀ k, t.coeffs.cols ≤ k →
        hamiltonian ⟨controls, t, [], initial⟩ k = Operator.zero initial.dim initial.dim := by
  refine ⟨computeChecked_eq h t initial phase, error?_compute phase, fun hnone => ?_,
    fun k hk => hamiltonian_of_cols_le hk⟩
  obtain ⟨e, he⟩ := Result.error?_eq_none.mp ((error?_compute phase).trans hnone)
  exact ⟨e, he, evolves_of_compute he⟩

end Refusals

/-- In exact arithmetic all generators are finite, so what fits evolves. -/
theorem exists_compute {controls : List (ControlOperator ℝ)} {t : Timeline ℝ} {initial : State ℝ}
    (hstep : t.interpolation = .step) (hrows : t.numControls = controls.length)
    (hdim : ∀ c ∈ controls, c.dim = initial.dim)
    (hroom : 16 * (initial.dim * initial.dim) ≤ Word.mostBytes) (hsquare : initial.isSquare = true)
    (phase : ℝ) : (refusals controls t initial).findSome? id = none ∧
      ∃ e, compute controls t initial phase = .ok e := by
  have hfinite : (generators ⟨controls, t, [], initial⟩).all Operator.isFinite = true :=
    List.all_eq_true.mpr fun g _ => g.isFinite_real
  have hnone : (refusals controls t initial).findSome? id = none := by
    rw [refusals, if_pos hstep, if_pos hrows, misfit?_eq_none.mpr hdim, if_pos hroom, if_pos hfinite,
      if_pos hsquare]
    rfl
  exact ⟨hnone, Result.error?_eq_none.mp ((error?_compute phase).trans hnone)⟩

/-- Two segments of which only the first has a coefficient, on a control of one qubit; and controls of
registers of one and of two qubits, of which the second misfits. -/
theorem compute_refuses_in_order_on_missing_column :
    (∃ c : ControlOperator ℝ, ControlOperator.new "x" .sigmaX 1 = .ok c ∧ ∀ phase,
      let t : Timeline ℝ := ⟨[0, 1, 3], ⟨1, 1, #[1], rfl⟩, .step⟩
      let initial : State ℝ := .ket #[.one, .zero]
      ∃ e, compute [c] t initial phase = .ok e ∧ e.propagators.length = 2 ∧
        hamiltonian ⟨[c], t, [], initial⟩ 1 = Operator.zero 2 2) ∧
    ∃ c c' : ControlOperator Float, ControlOperator.new "x" .sigmaX 1 = .ok c ∧
      ControlOperator.new "zero" (.zero 4 4) 2 = .ok c' ∧ ∀ phase,
      compute [c, c'] ⟨[], ⟨2, 0, #[], rfl⟩, .step⟩ (.ket #[.one, .zero]) phase =
        .error (.dimensionMismatch 2 4) := by
  refine ⟨⟨⟨"x", .sigmaX⟩, rfl, fun phase => ?_⟩, ⟨"x", .sigmaX⟩, ⟨"zero", .zero 4 4⟩, rfl, rfl,
    fun phase => ?_⟩
  · intro t initial
    have hcontrols : ∀ c ∈ [(⟨"x", .sigmaX⟩ : ControlOperator ℝ)], c.Registered :=
      List.forall_mem_singleton.mpr ⟨"x", .sigmaX, 1, rfl⟩
    obtain ⟨-, -, hexists, hzero⟩ := compute_refuses_in_order hcontrols t initial phase
    have hdim : ∀ c ∈ [(⟨"x", .sigmaX⟩ : ControlOperator ℝ)], c.dim = initial.dim :=
      List.forall_mem_singleton.mpr rfl
    obtain ⟨hnone, -⟩ := exists_compute (t := t) rfl rfl hdim (by decide) rfl phase
    obtain ⟨e, he, hevolves⟩ := hexists hnone
    exact ⟨e, he, hevolves.count, hzero 1 le_rfl⟩
  · have hcontrols : ∀ c ∈ [(⟨"x", .sigmaX⟩ : ControlOperator Float), ⟨"zero", .zero 4 4⟩],
        c.Registered := by
      intro c hc
      rcases List.mem_pair.mp hc with rfl | rfl
      · exact ⟨"x", .sigmaX, 1, rfl⟩
      · exact ⟨"zero", .zero 4 4, 2, rfl⟩
    obtain ⟨-, herror, -⟩ := compute_refuses_in_order hcontrols ⟨[], ⟨2, 0, #[], rfl⟩, .step⟩
      (.ket #[.one, .zero]) phase
    exact Result.error?_eq_some.mp herror

/-- A density matrix with `2 ^ 32` rows and no columns. Nothing is driven, but there is no room for the
identity that the product starts from. -/
theorem state_without_room :
    let t : Timeline Float := ⟨[Scalar.zero], ⟨0, 0, #[], rfl⟩, .step⟩
    let initial : State Float := .density ⟨4294967296, 0, #[], rfl⟩
    t.numControls = 0 ∧ generators ⟨[], t, [], initial⟩ = [] ∧ initial.isSquare = false ∧
      compute [] t initial Scalar.zero = .error .tooLarge := by
  intro t initial
  have hroom : ¬16 * (initial.dim * initial.dim) ≤ Word.mostBytes := by decide
  refine ⟨rfl, rfl, rfl, Result.error?_eq_some.mp ?_⟩
  rw [error?_compute]
  unfold refusals
  rw [if_neg hroom]
  rfl

end AnalyticalEvolution
end QubitPulse
