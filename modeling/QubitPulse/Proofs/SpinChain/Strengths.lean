import QubitPulse.Proofs.Exact.Scalar
import QubitPulse.Proofs.Result
import QubitPulse.SpinChain.Strengths

/-!
# Strengths that a chain accepts

Every strength that pulses are computed from was checked to be above zero, and the table has one for
every qubit and one for every coupled pair.
-/
namespace QubitPulse

namespace ParameterTable

variable {α : Type}

/-- A row that was put into a table is found there; any other row is found as before. -/
theorem find?_insert (t : ParameterTable α) (name name' : String) (values : List α) :
    (t.insert name values).find? name' = if name = name' then some values else t.find? name' := by
  obtain ⟨rows⟩ := t
  unfold insert find?
  induction rows with
  | nil => by_cases h : name = name' <;> simp [insertRow, h]
  | cons row rows ih =>
    obtain ⟨k, v⟩ := row
    by_cases hlt : name < k
    · rw [insertRow, if_pos hlt]
      by_cases h : name = name' <;> simp [List.find?_cons, h]
    · by_cases heq : name = k
      · subst heq
        rw [insertRow, if_neg hlt, if_pos rfl]
        by_cases h : name = name' <;> simp [h]
      · rw [insertRow, if_neg hlt, if_neg heq]
        by_cases hk : k = name'
        · have h : name ≠ name' := fun h => heq (h.trans hk.symm)
          simp [hk, h]
        · simpa [List.find?_cons, hk] using ih

theorem valueAt_eq_ok {t : ParameterTable α} {name : String} {i : Nat} {x : α} :
    t.valueAt name i = .ok x ↔ ∃ xs, t.find? name = some xs ∧ xs[i]? = some x := by
  unfold valueAt get
  rw [Result.bind_eq_ok]
  cases t.find? name with
  | none => simp
  | some xs => cases h : xs[i]? <;> simp [h]

/-- The table has a row of this name with a number of values. -/
def Lists (t : ParameterTable α) (name : String) (count : Nat) : Prop :=
  ∃ xs, t.get name = .ok xs ∧ xs.length = count

theorem lists_of_find? {t : ParameterTable α} {name : String} {xs : List α} {count : Nat}
    (h : t.find? name = some xs) (hcount : xs.length = count) : t.Lists name count :=
  ⟨xs, by rw [get, h], hcount⟩

end ParameterTable

namespace ChainStrengths

variable {α : Type} [Scalar α]

/-- A parameter of the needed number of values, all of them above zero. -/
def Usable (value : ParamValue α) (needed : Nat) (xs : List α) : Prop :=
  value.expand needed = .ok xs ∧ xs.length = needed ∧ ∀ x ∈ xs, Scalar.isPositive x = true

theorem usable_scalar {x : α} (hx : Scalar.isPositive x = true) {n : Nat}
    (hroom : (Storage.reserve 1 [n] : Result α Unit) = .ok ()) :
    Usable (.scalar x) n (List.replicate n x) :=
  ⟨Result.bind_eq_ok.mpr ⟨(), hroom, rfl⟩, List.length_replicate, fun _ hy =>
    (List.eq_of_mem_replicate hy).symm ▸ hx⟩

omit [Scalar α] in
theorem refuse_eq_ok {name : String} {fault : Option (ParameterFault α)} {u : Unit} :
    refuse name fault = .ok u ↔ fault = none := by
  cases fault <;> simp [refuse]

omit [Scalar α] in
/-- The number of values is the one needed exactly if nothing is wrong with it. -/
theorem countFault?_eq_none {value : ParamValue α} {needed : Nat} {xs : List α}
    (h : value.expand needed = .ok xs) : countFault? needed value = none ↔ xs.length = needed := by
  cases value with
  | scalar x =>
    obtain ⟨_, _, h⟩ := Result.bind_eq_ok.mp h
    rw [← Except.ok.inj h]
    simp [countFault?, ParamValue.explicitLength?]
  | perQubit ys =>
    rw [← Except.ok.inj h]
    simp [countFault?, ParamValue.explicitLength?, Option.filter]

theorem store_eq_ok {t t' : ParameterTable α} {name : String} {value : ParamValue α} {needed : Nat} :
    store t (name, value, needed) = .ok t' ↔ ∃ xs, Usable value needed xs ∧
      t' = t.insert name (xs.map (· * ParamValue.fullTurn)) := by
  have hfault : ∀ xs : List α, valueFault? xs = none ↔ ∀ x ∈ xs, Scalar.isPositive x = true := by
    simp [valueFault?]
  unfold store
  simp only [Result.bind_eq_ok, refuse_eq_ok, ParameterTable.insertScaled, ParamValue.toAngular,
    Result.map_eq_ok, hfault]
  constructor
  · rintro ⟨_, hcount, xs, hxs, _, hpositive, _, ⟨ys, hys, rfl⟩, rfl⟩
    obtain rfl := Except.ok.inj (hxs.symm.trans hys)
    exact ⟨xs, ⟨hxs, (countFault?_eq_none hxs).mp hcount, hpositive⟩, rfl⟩
  · rintro ⟨xs, ⟨hxs, hlength, hpositive⟩, rfl⟩
    exact ⟨(), (countFault?_eq_none hxs).mpr hlength, xs, hxs, (), hpositive, _, ⟨xs, hxs, rfl⟩, rfl⟩

/-- Strengths are accepted exactly if every parameter is usable; then each is stored in angular
units. -/
theorem normalize_eq_ok {s : ChainStrengths α} {n m : Nat} {t : ParameterTable α} :
    s.normalize n m = .ok t ↔ ∃ xs zs es, Usable s.sx n xs ∧ Usable s.sz n zs ∧ Usable s.sxsy m es ∧
      t = ((ParameterTable.empty.insert "sx" (xs.map (· * ParamValue.fullTurn))).insert "sz"
        (zs.map (· * ParamValue.fullTurn))).insert "sxsy" (es.map (· * ParamValue.fullTurn)) := by
  unfold normalize
  simp only [List.foldlM_cons, List.foldlM_nil, Result.bind_eq_ok, store_eq_ok]
  constructor
  · rintro ⟨_, ⟨xs, hxs, rfl⟩, _, ⟨zs, hzs, rfl⟩, _, ⟨es, hes, rfl⟩, h⟩
    exact ⟨xs, zs, es, hxs, hzs, hes, (Except.ok.inj h).symm⟩
  · rintro ⟨xs, zs, es, hxs, hzs, hes, rfl⟩
    exact ⟨_, ⟨xs, hxs, rfl⟩, _, ⟨zs, hzs, rfl⟩, _, ⟨es, hes, rfl⟩, rfl⟩

/-- Accepted strengths are stored with one value for every qubit or coupled pair. -/
theorem lists_normalize {s : ChainStrengths α} {n m : Nat} {t : ParameterTable α}
    (h : s.normalize n m = .ok t) : t.Lists "sx" n ∧ t.Lists "sz" n ∧ t.Lists "sxsy" m := by
  obtain ⟨xs, zs, es, ⟨-, hxs, -⟩, ⟨-, hzs, -⟩, ⟨-, hes, -⟩, htable⟩ := normalize_eq_ok.mp h
  have hx : t.find? "sx" = some (xs.map (· * ParamValue.fullTurn)) := by
    simp [htable, ParameterTable.find?_insert]
  have hz : t.find? "sz" = some (zs.map (· * ParamValue.fullTurn)) := by
    simp [htable, ParameterTable.find?_insert]
  have he : t.find? "sxsy" = some (es.map (· * ParamValue.fullTurn)) := by
    simp [htable, ParameterTable.find?_insert]
  exact ⟨ParameterTable.lists_of_find? hx (by simpa using hxs),
    ParameterTable.lists_of_find? hz (by simpa using hzs),
    ParameterTable.lists_of_find? he (by simpa using hes)⟩

end ChainStrengths

def ParameterTable.Positive (t : ParameterTable ℝ) : Prop :=
  ∀ name i s, t.valueAt name i = .ok s → 0 < s

/-- The table has a strength above zero for every qubit and every coupled pair, and no other. -/
structure ParameterTable.Drives (t : ParameterTable ℝ) (numQubits numCouplings : ℕ) : Prop where
  x : ∀ q < numQubits, ∃ s, t.valueAt "sx" q = .ok s
  z : ∀ q < numQubits, ∃ s, t.valueAt "sz" q = .ok s
  exchange : ∀ k < numCouplings, ∃ s, t.valueAt "sxsy" k = .ok s
  positive : t.Positive

/-- Usable values have one in angular units at every position, above zero. -/
theorem ChainStrengths.Usable.scaled {value : ParamValue ℝ} {needed : ℕ} {xs : List ℝ}
    (h : Usable value needed xs) :
    (∀ i < needed, ∃ s, (xs.map (· * ParamValue.fullTurn))[i]? = some s) ∧
      ∀ s ∈ xs.map (· * ParamValue.fullTurn), 0 < s := by
  obtain ⟨-, rfl, hpositive⟩ := h
  refine ⟨fun i hi => ⟨_, List.getElem?_eq_getElem (by simpa using hi)⟩, fun s hs => ?_⟩
  obtain ⟨x, hx, rfl⟩ := List.mem_map.mp hs
  have hx : 0 < x := by simpa using hpositive x hx
  exact mul_pos hx (by simp [ParamValue.fullTurn, Real.pi_pos])

theorem ChainStrengths.drives_normalize {s : ChainStrengths ℝ} {n m : ℕ} {t : ParameterTable ℝ}
    (h : s.normalize n m = .ok t) : t.Drives n m := by
  obtain ⟨xs, zs, es, hx, hz, he, rfl⟩ := normalize_eq_ok.mp h
  refine ⟨fun q hq => ?_, fun q hq => ?_, fun k hk => ?_, fun name i s hs => ?_⟩
  · obtain ⟨s, hs⟩ := hx.scaled.1 q hq
    exact ⟨s, ParameterTable.valueAt_eq_ok.mpr ⟨_, by simp [ParameterTable.find?_insert], hs⟩⟩
  · obtain ⟨s, hs⟩ := hz.scaled.1 q hq
    exact ⟨s, ParameterTable.valueAt_eq_ok.mpr ⟨_, by simp [ParameterTable.find?_insert], hs⟩⟩
  · obtain ⟨s, hs⟩ := he.scaled.1 k hk
    exact ⟨s, ParameterTable.valueAt_eq_ok.mpr ⟨_, by simp [ParameterTable.find?_insert], hs⟩⟩
  obtain ⟨ys, hys, hi⟩ := ParameterTable.valueAt_eq_ok.mp hs
  have hs := List.mem_of_getElem? hi
  simp only [ParameterTable.find?_insert] at hys
  split_ifs at hys
  · exact he.scaled.2 s (Option.some.inj hys ▸ hs)
  · exact hz.scaled.2 s (Option.some.inj hys ▸ hs)
  · exact hx.scaled.2 s (Option.some.inj hys ▸ hs)
  · cases hys

end QubitPulse
