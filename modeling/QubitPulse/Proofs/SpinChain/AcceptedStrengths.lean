import QubitPulse.Proofs.Parameter
import QubitPulse.Proofs.SpinChain.Controls
import QubitPulse.Proofs.SpinChain.Strengths
import QubitPulse.Scalar.Double

/-!
# Which strengths are accepted

The strengths of a chain are checked one parameter after the other, the number of its values first and then
the values. What is refused is exactly the first parameter that has a fault, for its first fault. A strength
that is given once is checked where it is used, so that the exchange strength of a single qubit, which has
no neighbour, is never looked at.
-/
namespace QubitPulse

namespace Result

/-- Steps of a fold whose failures do not depend on what was folded fail as the first of them that fails. -/
theorem error?_foldlM {α β γ : Type} {f : γ → β → Result α γ} {g : β → Option (Error α)} {xs : List β}
    (h : ∀ x ∈ xs, ∀ c, error? (f c x) = g x) (c : γ) : error? (xs.foldlM f c) = xs.findSome? g := by
  induction xs generalizing c with
  | nil => rfl
  | cons x xs ih =>
    have hfirst := h x (by simp) c
    rw [List.foldlM_cons, List.findSome?_cons, ← hfirst]
    cases f c x with
    | error e => rfl
    | ok d => exact ih (fun x hx => h x (by simp [hx])) d

end Result

/-- The values that were given: a single one or those of a list. -/
def ParamValue.given {α : Type} : ParamValue α → List α
  | scalar x => [x]
  | perQubit xs => xs

/-- A chain whose coupled pairs find room has room for a value for each qubit and each pair. -/
theorem ChainLayout.room_of_couplingsStored {α : Type} {layout : ChainLayout} {n : ℕ}
    {couplings : List (ℕ × ℕ)} (h : (layout.couplingsStored n : Result α _) = .ok couplings) :
    couplings = layout.couplings n ∧ 8 * n ≤ Word.mostBytes ∧ 8 * couplings.length ≤ Word.mostBytes := by
  obtain ⟨_, hroom, hcouplings⟩ := Result.bind_eq_ok.mp h
  obtain rfl := Except.ok.inj hcouplings
  have hbytes : 16 * (n - 1) ≤ Word.mostBytes := by
    unfold Storage.reserve at hroom
    split_ifs at hroom with hfits
    simp only [Storage.fits, Bool.and_eq_true, decide_eq_true_eq] at hfits
    simpa using hfits.2
  have hlength := SpinChain.length_couplings_le layout n
  have hbound : Word.mostBytes = 2 ^ 63 - 1 := rfl
  exact ⟨rfl, by omega, by omega⟩

theorem ChainLayout.length_couplings_eq_zero (layout : ChainLayout) {n : ℕ} (hn : 1 ≤ n) :
    (layout.couplings n).length = 0 ↔ n = 1 := by
  unfold ChainLayout.couplings ChainLayout.closingPair
  cases layout with
  | linear =>
    simp
    omega
  | circular =>
    split_ifs
    · simp
      omega
    · simp
      omega

namespace ChainStrengths

variable {α : Type} [Scalar α]

/-- What is wrong with a parameter that needs a number of values: a list has another length, or else the
first value that is not finite and positive. A value that is given once is not looked at where none is
needed. -/
def offence? (needed : ℕ) : ParamValue α → Option (ParameterFault α)
  | .scalar x => if needed = 0 ∨ Scalar.isPositive x = true then none else some (.notPositive x)
  | .perQubit xs =>
    if xs.length = needed then (xs.find? fun x => !Scalar.isPositive x).map .notPositive
    else some (.wrongCount needed xs.length)

omit [Scalar α] in
theorem error?_refuse (name : String) (fault : Option (ParameterFault α)) :
    Result.error? (refuse name fault) = fault.map (.invalidParameter name) := by
  cases fault <;> rfl

theorem faults_eq_offence? (needed : ℕ) (value : ParamValue α) :
    (countFault? needed value).or (valueFault? (value.broadcast needed)) = offence? needed value := by
  cases value with
  | scalar x =>
    have hcount : countFault? needed (.scalar x) = none := rfl
    rw [hcount, Option.none_or, ParamValue.broadcast, valueFault?, List.find?_replicate, offence?]
    by_cases hneeded : needed = 0 <;> by_cases hx : Scalar.isPositive x = true <;> simp [hneeded, hx]
  | perQubit xs =>
    unfold countFault? ParamValue.explicitLength? offence?
    by_cases hlength : xs.length = needed <;>
      simp [hlength, Option.filter, ParamValue.broadcast, valueFault?]

/-- Storing a parameter fails for what is wrong with it, whatever was stored before. -/
theorem error?_store {name : String} {value : ParamValue α} {needed : ℕ}
    (hroom : value.hasRoom needed = true) (t : ParameterTable α) :
    Result.error? (store t (name, value, needed)) =
      (offence? needed value).map (.invalidParameter name) := by
  have hexpand : value.expand needed = .ok (value.broadcast needed) := by
    rw [ParamValue.expand_eq, if_pos hroom]
  unfold store
  simp only [hexpand, Result.ok_bind, Result.error?_check, error?_refuse, ParameterTable.insertScaled,
    ParamValue.toAngular, Result.error?_map]
  rw [← faults_eq_offence?, Option.map_or]
  simp [Result.error?]

theorem offence?_eq_none {needed : ℕ} {value : ParamValue α} : offence? needed value = none ↔
    (∀ k ∈ value.explicitLength?, k = needed) ∧
      (needed = 0 ∨ ∀ x ∈ value.given, Scalar.isPositive x = true) := by
  cases value with
  | scalar x => simp [offence?, ParamValue.explicitLength?, ParamValue.given, or_iff_not_imp_left]
  | perQubit xs =>
    unfold offence? ParamValue.explicitLength? ParamValue.given
    by_cases hlength : xs.length = needed
    · subst hlength
      have hempty : xs.length = 0 → ∀ x ∈ xs, Scalar.isPositive x = true := by
        intro h
        simp [List.length_eq_zero_iff.mp h]
      simpa [or_iff_not_imp_left] using hempty
    · simp [hlength]

/-- The parameters in the order of the checks, with the number of values each of them needs. -/
def parameters (s : ChainStrengths α) (numQubits numCouplings : ℕ) : List (String × ParamValue α × ℕ) :=
  [("sx", s.sx, numQubits), ("sz", s.sz, numQubits), ("sxsy", s.sxsy, numCouplings)]

theorem error?_normalize (s : ChainStrengths α) {n m : ℕ} (hn : 8 * n ≤ Word.mostBytes)
    (hm : 8 * m ≤ Word.mostBytes) : Result.error? (s.normalize n m) =
      (s.parameters n m).findSome? fun p => (offence? p.2.2 p.2.1).map (.invalidParameter p.1) := by
  have hroom : ∀ (value : ParamValue α) {k : ℕ}, 8 * k ≤ Word.mostBytes → value.hasRoom k = true := by
    intro value k hk
    cases value <;> simp [ParamValue.hasRoom, hk]
  refine Result.error?_foldlM (fun p hp t => ?_) ParameterTable.empty
  simp only [List.mem_cons, List.not_mem_nil, or_false] at hp
  obtain rfl | rfl | rfl := hp
  · exact error?_store (hroom _ hn) t
  · exact error?_store (hroom _ hn) t
  · exact error?_store (hroom _ hm) t

/-- Strengths are accepted if every list has the length it needs and every value is finite and positive, but
for the exchange strength of a single qubit; then there is a strength for every qubit and for every coupled
pair. Otherwise the first parameter with a fault is refused for its first fault. -/
theorem normalize_is_exact {n : ℕ} (hn : 1 ≤ n) {layout : ChainLayout} {couplings : List (ℕ × ℕ)}
    (h : (layout.couplingsStored n : Result α _) = .ok couplings) (s : ChainStrengths α) :
    let m := couplings.length
    ((∃ t, s.normalize n m = .ok t) ↔
      (∀ k ∈ s.sx.explicitLength?, k = n) ∧ (∀ k ∈ s.sz.explicitLength?, k = n) ∧
        (∀ k ∈ s.sxsy.explicitLength?, k = m) ∧
        (∀ x ∈ s.sx.given ++ s.sz.given, Scalar.isPositive x = true) ∧
        (n = 1 ∨ ∀ x ∈ s.sxsy.given, Scalar.isPositive x = true)) ∧
    Result.error? (s.normalize n m) = (s.parameters n m).findSome? (fun p =>
      (offence? p.2.2 p.2.1).map (.invalidParameter p.1)) ∧
    ∀ t, s.normalize n m = .ok t → t.Lists "sx" n ∧ t.Lists "sz" n ∧ t.Lists "sxsy" m := by
  intro m
  obtain ⟨hcouplings, hroom, hroom'⟩ := ChainLayout.room_of_couplingsStored h
  have herror := error?_normalize s hroom hroom'
  have hsingle : couplings.length = 0 ↔ n = 1 := by
    rw [← layout.length_couplings_eq_zero hn, ← hcouplings]
  have hn' : n ≠ 0 := by omega
  refine ⟨?_, herror, fun t => lists_normalize⟩
  rw [← Result.error?_eq_none, herror, List.findSome?_eq_none_iff]
  simp only [m, parameters, List.forall_mem_cons, Option.map_eq_none_iff, offence?_eq_none, hsingle, hn',
    false_or, List.forall_mem_append]
  constructor
  · rintro ⟨⟨hsx, hx⟩, ⟨hsz, hz⟩, ⟨hsxsy, hxy⟩, -⟩
    exact ⟨hsx, hsz, hsxsy, ⟨hx, hz⟩, hxy⟩
  · rintro ⟨hsx, hsz, hsxsy, ⟨hx, hz⟩, hxy⟩
    exact ⟨⟨hsx, hx⟩, ⟨hsz, hz⟩, ⟨hsxsy, hxy⟩, List.forall_mem_nil _⟩

/-- On a ring of three qubits, whose exchange strengths are missing, the second of the strengths about z is
refused first. -/
theorem normalize_blames_on_ring_of_three :
    1 ≤ 3 ∧ (ChainLayout.circular.couplingsStored 3 : Result Float _) = .ok [(0, 1), (1, 2), (2, 0)] ∧
      Result.error? (ChainStrengths.normalize
        ⟨.scalar 0.5, .perQubit [1.0, -2.0, 0.0 / 0.0], .perQubit []⟩ 3 3) =
        some (.invalidParameter "sz" (.notPositive (-2.0 : Float))) :=
  have hcouplings : (ChainLayout.circular.couplingsStored 3 : Result Float _) =
    .ok [(0, 1), (1, 2), (2, 0)] := rfl
  ⟨by decide, hcouplings, (normalize_is_exact (by decide) hcouplings _).2.1.trans (by decide)⟩

/-- A single qubit has no neighbour, so a negative exchange strength is accepted there. Two qubits refuse
it. -/
theorem exchange_of_one_qubit_unchecked :
    let s : ChainStrengths Float := { default with sxsy := .scalar (-1.0) }
    (∃ t, s.normalize 1 (ChainLayout.linear.couplings 1).length = .ok t ∧ t.get "sxsy" = .ok []) ∧
      Scalar.isPositive (-1.0 : Float) = false ∧
      Result.error? (s.normalize 2 (ChainLayout.linear.couplings 2).length) =
        some (.invalidParameter "sxsy" (.notPositive (-1.0))) :=
  have haccepted : (ChainStrengths.normalize { default with sxsy := .scalar (-1.0 : Float) } 1
      (ChainLayout.linear.couplings 1).length >>= fun t => t.get "sxsy") = .ok [] := by
    decide
  ⟨Result.bind_eq_ok.mp haccepted, by decide, by decide⟩

end ChainStrengths
end QubitPulse
