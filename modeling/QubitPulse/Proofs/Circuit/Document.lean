import QubitPulse.Proofs.Circuit.Editing
import QubitPulse.Proofs.Json.Records

/-!
# Circuits in documents

A circuit is written with its register, its gates in order and its name, and read back as it was. Nothing
of a valid circuit gets lost: the angles are finite, and the qubits are words since the register is one.
-/
namespace QubitPulse
open Json.Value (ReadsBack)

theorem GateKind.ofJson?_toJson (k : GateKind) : GateKind.ofJson? k.toJson = some k := by
  cases k <;> rfl

namespace Gate

theorem wellFormed_toJson (g : Gate Float) : g.toJson.WellFormed := by
  apply Json.Value.wellFormed_record
  intro m hm
  simp only [List.mem_cons, List.not_mem_nil, or_false] at hm
  rcases hm with rfl | rfl | rfl | rfl
  · rfl
  · exact Json.Value.wellFormed_list fun n _ => Json.Value.wellFormed_nat n
  · exact Json.Value.wellFormed_list fun n _ => Json.Value.wellFormed_nat n
  · exact Json.Value.wellFormed_orNull fun x _ => Json.Value.wellFormed_scalar x

/-- A gate whose qubits are words is read back if its angle is. -/
theorem ofJson?_toJson {g : Gate Float} (hqubits : ∀ q ∈ g.qubits, q < Json.Value.wordBound)
    (hangle : ∀ a ∈ g.angle, ReadsBack a) : ofJson? g.toJson = some g := by
  have hfields := Json.Value.fields?_record [("kind", g.kind.toJson),
    ("targets", .list .nat g.targets), ("controls", .list .nat g.controls),
    ("arg", .orNull Json.Value.scalar g.angle)] (by simp) false
  have htargets := Json.Value.list?_list g.targets fun q hq =>
    Json.Value.nat?_nat (hqubits q (List.mem_append_right _ hq))
  have hcontrols := Json.Value.list?_list g.controls fun q hq =>
    Json.Value.nat?_nat (hqubits q (List.mem_append_left _ hq))
  have harg : Json.Value.optional Json.Value.scalar? (some (.orNull Json.Value.scalar g.angle)) =
      some g.angle :=
    Json.Value.optional_orNull rfl fun a ha => Json.Value.scalar?_scalar (hangle a ha)
  simp only [List.map_cons, List.map_nil] at hfields
  simp only [ofJson?, toJson, hfields, Option.bind_eq_bind, Option.bind_some,
    Json.Value.required, GateKind.ofJson?_toJson, htargets, hcontrols, harg]
  rfl

end Gate

namespace Circuit

/-- The angles of the gates that have one. -/
def angles {α : Type} (c : Circuit α) : List α := c.gates.filterMap Gate.angle

theorem wellFormed_toJson (c : Circuit Float) : c.toJson.WellFormed := by
  apply Json.Value.wellFormed_record
  intro m hm
  simp only [List.mem_cons, List.not_mem_nil, or_false] at hm
  rcases hm with rfl | rfl | rfl
  · exact Json.Value.wellFormed_nat _
  · exact Json.Value.wellFormed_list fun g _ => g.wellFormed_toJson
  · exact Json.Value.wellFormed_orNull fun _ _ => rfl

/-- A circuit is read back if each of its gates is. -/
theorem ofJson?_toJson {c : Circuit Float} (hword : c.numQubits < Json.Value.wordBound)
    (hgates : ∀ g ∈ c.gates, Gate.ofJson? g.toJson = some g) : ofJson? c.toJson = some c := by
  have hfields := Json.Value.fields?_record [("num_qubits", .nat c.numQubits),
    ("gates", .list Gate.toJson c.gates), ("name", .orNull .text c.name)] (by simp) false
  have hname : Json.Value.optional Json.Value.text? (some (.orNull .text c.name)) = some c.name :=
    Json.Value.optional_orNull rfl fun _ _ => rfl
  simp only [List.map_cons, List.map_nil] at hfields
  simp only [ofJson?, toJson, hfields, Option.bind_eq_bind, Option.bind_some,
    Json.Value.required, Json.Value.nat?_nat hword, Json.Value.list?_list c.gates hgates, hname]
  rfl

/-- A valid circuit is read back from its document. Of its angles it is supposed that a finite one is
read from its numeral as it was. -/
theorem ofDocument_toDocument {c : Circuit Float} (hvalid : c.validate = .ok ())
    (hword : c.numQubits < Json.Value.wordBound)
    (hread : ∀ a ∈ c.angles, Scalar.isFinite a = true → ReadsBack a) :
    ofDocument c.toDocument = .ok c := by
  have hparse : Json.Value.parse? c.toDocument = some c.toJson :=
    Json.Value.parse?_indented c.wellFormed_toJson
  rw [ofDocument_eq_ok, hparse, Option.bind_some]
  refine ⟨ofJson?_toJson hword fun g hg => ?_, hvalid⟩
  have hfits := validate_eq_ok.mp hvalid g hg
  refine Gate.ofJson?_toJson (fun q hq => (hfits.inRange q hq).trans hword) fun a ha => ?_
  exact hread a (List.mem_filterMap.mpr ⟨g, hg, ha⟩) (hfits.finite a ha)

/-- The register of a circuit that is decoded is a word. -/
theorem numQubits_lt_of_ofJson? {v : Json.Value} {c : Circuit Float} (h : ofJson? v = some c) :
    c.numQubits < Json.Value.wordBound := by
  unfold ofJson? at h
  obtain ⟨_, -, h⟩ := Option.bind_eq_some_iff.mp h
  split at h
  · obtain ⟨n, hn, h⟩ := Option.bind_eq_some_iff.mp h
    obtain ⟨gates, -, h⟩ := Option.bind_eq_some_iff.mp h
    obtain ⟨name, -, h⟩ := Option.bind_eq_some_iff.mp h
    obtain rfl := Option.some.inj h
    obtain ⟨_, -, hn⟩ := Option.bind_eq_some_iff.mp hn
    exact Json.Value.lt_wordBound_of_nat? hn
  · cases h

/-- However a circuit came about and was edited, it is read back from its document; and what is read from
any text is valid and read back from its own document. Of the angles it is supposed that a finite one
is read from its numeral as it was. -/
theorem circuits_are_read_back :
    (∀ start : Circuit Float, Made start → start.numQubits < Json.Value.wordBound → ∀ edits,
      let c := start.edited edits
      (∀ a ∈ c.angles, Scalar.isFinite a = true → ReadsBack a) → ofDocument c.toDocument = .ok c) ∧
    ∀ (document : String) (c : Circuit Float), ofDocument document = .ok c →
      c.validate = .ok () ∧ ((∀ a ∈ c.angles, Scalar.isFinite a = true → ReadsBack a) →
        ofDocument c.toDocument = .ok c) := by
  constructor
  · intro start hmade hword edits c hread
    obtain ⟨hvalid, hsize⟩ := validate_edited edits hmade.validate
    exact ofDocument_toDocument hvalid (hsize ▸ hword) hread
  · intro document c h
    obtain ⟨hdecoded, hvalid⟩ := ofDocument_eq_ok.mp h
    obtain ⟨_, -, hdecoded⟩ := Option.bind_eq_some_iff.mp hdecoded
    exact ⟨hvalid, ofDocument_toDocument hvalid (numQubits_lt_of_ofJson? hdecoded)⟩

/-- A name with quotes, control characters and letters of other alphabets; then a document that gives its
records as arrays. -/
theorem circuits_are_read_back_on_quoted_name :
    let name := "\"β\" \\ \t\u0007\u0000 회로 𝛑"
    let start : Circuit Float := build 2 none [.gate (.h 0), .iSwapChain, .gate (.globalPhase (-0.5))]
    let edits : List (Edit Float) := [.addAll [.h 1, .rx 0 0.25, .x 2], .setName name]
    let c : Circuit Float := ⟨2, [.h 0, .iSwap 0 1, .globalPhase (-0.5), .h 1, .rx 0 0.25], some name⟩
    let document := "[1, [[\"Rz\", [0], [], 2.50e-1], [\"X\", [0], [], null]], null]"
    let d : Circuit Float := ⟨1, [.rz 0 0.25, .x 0], none⟩
    Made start ∧ start.edited edits = c ∧
      (∀ a ∈ c.angles ++ d.angles, Scalar.isFinite a = true → ReadsBack a) ∧
      ofDocument c.toDocument = .ok c ∧ ofDocument document = .ok d ∧
      ofDocument d.toDocument = .ok d := by
  intro name start edits c document d
  have hmade : Made start := .build _ _ _
  have hedited : start.edited edits = c := rfl
  obtain ⟨hread, hdocument⟩ :
      (∀ a ∈ c.angles ++ d.angles, Scalar.isFinite a = true → ReadsBack a) ∧
        ofDocument document = .ok d := by
    decide +kernel
  obtain ⟨hreached, hdecoded⟩ := circuits_are_read_back
  have hback := hreached start hmade (by decide) edits
  rw [hedited] at hback
  exact ⟨hmade, hedited, hread, hback fun a ha => hread a (List.mem_append_left _ ha), hdocument,
    (hdecoded document d hdocument).2 fun a ha => hread a (List.mem_append_right _ ha)⟩

end Circuit
end QubitPulse
