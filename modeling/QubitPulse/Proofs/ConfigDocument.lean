import QubitPulse.Config
import QubitPulse.Proofs.Json.Records
import QubitPulse.Proofs.Result

/-!
# Configurations in documents

A valid configuration may hold infinite relaxation times, since an infinite time stands for a channel
without noise. A document has no numeral for them. So a configuration is read back from its document
exactly if all its times are finite.
-/
namespace QubitPulse
open Json.Value (ReadsBack)

namespace ParamValue

variable {α : Type}

/-- The values that a parameter lists. -/
def listed : ParamValue α → List α
  | scalar x => [x]
  | perQubit xs => xs

theorem wellFormed_toJson (v : ParamValue Float) : v.toJson.WellFormed := by
  cases v with
  | scalar x => exact Json.Value.wellFormed_scalar x
  | perQubit xs => exact Json.Value.wellFormed_list fun x _ => Json.Value.wellFormed_scalar x

/-- A parameter of finite numbers is read back. -/
theorem ofJson?_toJson {v : ParamValue Float} (h : ∀ x ∈ v.listed, ReadsBack x) :
    ofJson? v.toJson = some v := by
  cases v with
  | scalar x =>
    have hx := Json.Value.scalar?_scalar (h x (by simp [listed]))
    simp [toJson, ofJson?, hx]
  | perQubit xs =>
    have hxs := Json.Value.list?_list xs fun x hx => Json.Value.scalar?_scalar (h x hx)
    change ((Json.Value.list Json.Value.scalar xs).list? Json.Value.scalar?).map perQubit = _
    rw [hxs]
    rfl

end ParamValue

namespace Config

/-- All relaxation times of a configuration. -/
def times {α : Type} (c : Config α) : List α :=
  c.t1.elim [] ParamValue.listed ++ c.t2.elim [] ParamValue.listed

theorem wellFormed_toJson (c : Config Float) : c.toJson.WellFormed := by
  apply Json.Value.wellFormed_record
  intro m hm
  simp only [List.mem_cons, List.not_mem_nil, or_false] at hm
  rcases hm with rfl | rfl | rfl | rfl | rfl
  · exact Json.Value.wellFormed_nat _
  · exact Json.Value.wellFormed_orNull fun v _ => v.wellFormed_toJson
  · exact Json.Value.wellFormed_orNull fun v _ => v.wellFormed_toJson
  · trivial
  · exact Json.Value.wellFormed_scalar _

/-- What is read of a field that was written with a parameter or without one. -/
def reread (v : Option (ParamValue Float)) : Option (Option (ParamValue Float)) :=
  Json.Value.optional ParamValue.ofJson? (some (.orNull ParamValue.toJson v))

/-- A document of a configuration is read field by field. -/
theorem ofJson?_toJson {c : Config Float} (hword : c.numQubits < Json.Value.wordBound)
    (hstep : ReadsBack c.rasterStep) :
    ofJson? c.toJson = do
      let t1 ← reread c.t1
      let t2 ← reread c.t2
      return { c with t1 := t1, t2 := t2 } := by
  have hfields := Json.Value.fields?_record [("num_qubits", .nat c.numQubits),
    ("t1", .orNull ParamValue.toJson c.t1), ("t2", .orNull ParamValue.toJson c.t2),
    ("correct_global_phase", .bool c.correctGlobalPhase),
    ("raster_step", Json.Value.scalar c.rasterStep)] (by simp) true
  simp only [List.map_cons, List.map_nil] at hfields
  simp only [ofJson?, toJson, hfields, Option.bind_eq_bind, Option.bind_some,
    Json.Value.withDefault, Json.Value.nat?_nat hword, Json.Value.bool?,
    Json.Value.scalar?_scalar hstep]
  rfl

/-- A document gives a configuration if it holds one that passes the check. -/
theorem ofDocument_eq_ok {document : String} {c : Config Float} :
    ofDocument document = .ok c ↔
      (Json.Value.parse? document).bind ofJson? = some c ∧ c.validate = .ok () := by
  unfold ofDocument
  cases (Json.Value.parse? document).bind (ofJson? (α := Float)) with
  | none => simp
  | some d => simp [Result.checked_eq_ok fun c : Config Float => c.validate]

/-- A single infinite value is written as if it were absent. -/
theorem reread_scalar {x : Float} (h : Scalar.isFinite x = false) :
    reread (some (.scalar x)) = some none := by
  change Json.Value.nullOr (ParamValue.ofJson? (α := Float)) (Json.Value.scalar x) = _
  rw [Json.Value.scalar_eq_null h]
  rfl

/-- A parameter is reread as it was exactly if all its values are finite. -/
theorem reread_eq_some {v : Option (ParamValue Float)}
    (h : ∀ x ∈ v.elim [] ParamValue.listed, Scalar.isFinite x = true → ReadsBack x) :
    reread v = some v ↔ ∀ x ∈ v.elim [] ParamValue.listed, Scalar.isFinite x = true := by
  match v with
  | none => simp [reread, Json.Value.orNull, Json.Value.optional, Json.Value.withDefault,
      Json.Value.nullOr]
  | some w =>
    change (∀ x ∈ w.listed, _) at h
    change _ ↔ ∀ x ∈ w.listed, _
    constructor
    · intro hsame x hx
      by_contra hfin
      rw [Bool.not_eq_true] at hfin
      cases w with
      | scalar y =>
        obtain rfl : x = y := by simpa [ParamValue.listed] using hx
        rw [reread_scalar hfin] at hsame
        cases hsame
      | perQubit ys =>
        change (((Json.Value.list Json.Value.scalar ys).list? Json.Value.scalar?).map
          ParamValue.perQubit).map some = _ at hsame
        obtain ⟨_, hlist, _⟩ := Option.map_eq_some_iff.mp hsame
        obtain ⟨zs, hzs, _⟩ := Option.map_eq_some_iff.mp hlist
        have hall := Json.Value.finite_of_list?_list hzs x hx
        rw [hfin] at hall
        cases hall
    · intro hfin
      have hback := ParamValue.ofJson?_toJson fun x hx => h x hx (hfin x hx)
      exact Json.Value.optional_orNull rfl fun _ heq => Option.some.inj heq ▸ hback

theorem isFinite_rasterStep {c : Config Float} (h : c.validate = .ok ()) :
    Scalar.isFinite c.rasterStep = true := by
  unfold validate at h
  split_ifs at h with _ hstep
  simp only [Scalar.isPositive, Bool.not_eq_true', Bool.not_eq_false, Bool.and_eq_true] at hstep
  exact hstep.1

/-- A valid configuration is read back from its document exactly if all its relaxation times are
finite. Of its numbers it is supposed that a finite one is read from its numeral as it was. -/
theorem ofDocument_toDocument_iff {c : Config Float} (hvalid : c.validate = .ok ())
    (hword : c.numQubits < Json.Value.wordBound)
    (hread : ∀ x ∈ c.rasterStep :: c.times, Scalar.isFinite x = true → ReadsBack x) :
    ofDocument c.toDocument = .ok c ↔ ∀ x ∈ c.times, Scalar.isFinite x = true := by
  have hparse : Json.Value.parse? c.toDocument = some c.toJson :=
    Json.Value.parse?_indented c.wellFormed_toJson
  have hstep := isFinite_rasterStep hvalid
  have ht1 := reread_eq_some (v := c.t1) fun x hx => hread x (by simp [times, hx])
  have ht2 := reread_eq_some (v := c.t2) fun x hx => hread x (by simp [times, hx])
  rw [ofDocument_eq_ok, hparse, Option.bind_some,
    ofJson?_toJson hword (hread _ (by simp) hstep)]
  simp only [times, List.mem_append, or_imp, forall_and, ← ht1, ← ht2]
  constructor
  · rintro ⟨hsame, -⟩
    obtain ⟨t1, h₁, hsame⟩ := Option.bind_eq_some_iff.mp hsame
    obtain ⟨t2, h₂, hsame⟩ := Option.bind_eq_some_iff.mp hsame
    obtain ⟨-, rfl, rfl, -⟩ := Config.mk.inj (Option.some.inj hsame)
    exact ⟨h₁, h₂⟩
  · rintro ⟨h₁, h₂⟩
    rw [h₁, h₂]
    exact ⟨rfl, hvalid⟩

/-- Two qubits with one relaxation time and a coherence time each. -/
def twoQubits : Config Float :=
  ⟨2, some (.scalar 100.0), some (.perQubit [60.0, 70.0]), true, defaultRasterStep⟩

theorem ofDocument_toDocument_twoQubits :
    twoQubits.validate = .ok () ∧ twoQubits.numQubits < Json.Value.wordBound ∧
      (∀ x ∈ twoQubits.rasterStep :: twoQubits.times, Scalar.isFinite x = true → ReadsBack x) ∧
      ofDocument twoQubits.toDocument = .ok twoQubits := by
  have hvalid : twoQubits.validate = .ok () := by decide +kernel
  have hword : twoQubits.numQubits < Json.Value.wordBound := by decide
  have hread : ∀ x ∈ twoQubits.rasterStep :: twoQubits.times,
      Scalar.isFinite x = true → ReadsBack x := by decide +kernel
  exact ⟨hvalid, hword, hread, (ofDocument_toDocument_iff hvalid hword hread).mpr (by decide +kernel)⟩

/-- One qubit whose relaxation is listed as none at all. -/
def neverRelaxing : Config Float :=
  ⟨1, some (.perQubit [1.0 / 0.0]), none, true, defaultRasterStep⟩

/-- One qubit whose single relaxation time is none at all. -/
def neverRelaxingAtOnce : Config Float := { neverRelaxing with t1 := some (.scalar (1.0 / 0.0)) }

/-- A valid configuration with an infinite time in a list cannot be read back at all; with a single
infinite time it is read back as one without that time. -/
theorem infinite_times_are_lost :
    neverRelaxing.validate = .ok () ∧
      ofDocument neverRelaxing.toDocument = (.error (.jsonError "configuration") : Result Float _) ∧
      neverRelaxingAtOnce.validate = .ok () ∧
      ofDocument neverRelaxingAtOnce.toDocument = .ok { neverRelaxing with t1 := none } := by
  decide +kernel

end Config
end QubitPulse
