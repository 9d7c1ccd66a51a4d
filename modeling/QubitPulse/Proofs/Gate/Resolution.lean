import QubitPulse.Proofs.Circuit.Editing
import QubitPulse.Proofs.Gate.Expansion

/-!
# Native gates in place of others

Five kinds of gates have no pulses of their own and are replaced, each by rotations on its qubit and a phase;
gates of the other kinds stay. What stands for well-formed gates is well-formed, on the same qubits, and has
nothing left to replace.
-/
namespace QubitPulse

namespace Gate

variable {α : Type}

/-- The kinds of gates that are replaced. -/
def replacedKinds : List GateKind := [.x, .y, .z, .h, .ry]

/-- A gate that stays as it is. -/
def IsKept (g : Gate α) : Prop := g.kind ∉ replacedKinds

instance (g : Gate α) : Decidable g.IsKept := inferInstanceAs (Decidable (g.kind ∉ replacedKinds))

variable [Scalar α]

/-- The gates that stand for a gate: well-formed, on its qubits, with nothing left to replace, and the gate
itself if it is kept. -/
structure StandsFor (g : Gate α) (part : List (Gate α)) : Prop where
  wellFormed : ∀ g' ∈ part, g'.validate = .ok ()
  kept : ∀ g' ∈ part, g'.IsKept
  qubits : ∀ g' ∈ part, g'.qubits ⊆ g.qubits
  unchanged : g.IsKept → part = [g]

theorem expand_of_isKept {g : Gate α} (h : g.IsKept) : g.expand = .ok [g] := by
  unfold expand
  split <;> simp_all [IsKept, replacedKinds]

/-- A well-formed gate is on some register. -/
theorem exists_onRegister {g : Gate α} (h : g.validate = .ok ()) : ∃ n, OnRegister n g :=
  ⟨g.qubits.sum + 1, onRegister_of_checkGate (checkGate_eq_ok.mpr
    ⟨h, fun _ hq => Nat.lt_succ_of_le (List.le_sum_of_mem hq)⟩)⟩

/-- The angles of the gates that stand for others are numbers. -/
structure FiniteTurns (α : Type) [Scalar α] : Prop where
  pi : Scalar.isFinite (Scalar.pi : α) = true
  halfPi : Scalar.isFinite (halfPi : α) = true
  neg_halfPi : Scalar.isFinite (-(Gate.halfPi : α)) = true

/-- The forms of gates that stand for others: rotations about x and z of a qubit, and phases. -/
inductive Turn (q : ℕ) : Gate α → Prop where
  | rx (θ : α) (finite : Scalar.isFinite θ = true) : Turn q (.rx q θ)
  | rz (θ : α) (finite : Scalar.isFinite θ = true) : Turn q (.rz q θ)
  | globalPhase (φ : α) (finite : Scalar.isFinite φ = true) : Turn q (.globalPhase φ)

theorem Turn.validate {q : ℕ} {g : Gate α} (h : Turn q g) : g.validate = .ok () := by
  cases h with
  | rx θ hθ | rz θ hθ | globalPhase θ hθ =>
    refine validate_eq_ok.mpr ⟨rfl, rfl, rfl, fun a ha => Option.some.inj ha ▸ hθ, ?_⟩
    simp [qubits, Gate.rx, Gate.rz, Gate.globalPhase]

theorem Turn.isKept {q : ℕ} {g : Gate α} (h : Turn q g) : g.IsKept := by
  cases h <;> simp [IsKept, replacedKinds, Gate.rx, Gate.rz, Gate.globalPhase]

theorem Turn.qubits_subset {q : ℕ} {g : Gate α} (h : Turn q g) : g.qubits ⊆ [q] := by
  cases h <;> simp [qubits, Gate.rx, Gate.rz, Gate.globalPhase]

/-- Gates that are well-formed and kept are their own native gates. -/
theorem resolveAll_eq_self {gates : List (Gate α)} (h : ∀ g ∈ gates, g.validate = .ok () ∧ g.IsKept) :
    resolveAll gates = .ok gates := by
  have hsingle : gates.mapM resolve = .ok (gates.map fun g => [g]) := by
    rw [Result.mapM_eq_ok, List.forall₂_map_right_iff, List.forall₂_same]
    exact fun g hg => Result.bind_eq_ok.mpr ⟨(), (h g hg).1, expand_of_isKept (h g hg).2⟩
  refine Result.map_eq_ok.mpr ⟨_, hsingle, ?_⟩
  rw [← List.flatMap_def, List.flatMap_singleton']

/-- What stands for a list of gates: for each of its gates a part, in order, so that the gates that are kept
are among them as they were, and nothing is left to replace. -/
structure ResolvesTo (gates native : List (Gate α)) : Prop where
  parts : ∃ parts, List.Forall₂ StandsFor gates parts ∧ native = parts.flatten
  closed : ∀ g ∈ native, g.validate = .ok () ∧ g.IsKept
  kept : (gates.filter fun g => g.IsKept).Sublist native
  fixed : resolveAll native = .ok native

/-- A gate that stands for a list of gates stands for one of them. -/
theorem exists_standsFor {gates : List (Gate α)} {parts : List (List (Gate α))}
    (h : List.Forall₂ StandsFor gates parts) {g' : Gate α} (hg' : g' ∈ parts.flatten) :
    ∃ g ∈ gates, ∃ part, g.StandsFor part ∧ g' ∈ part := by
  induction h with
  | nil => simp at hg'
  | @cons g part gates parts hstands _ ih =>
    rw [List.flatten_cons, List.mem_append] at hg'
    rcases hg' with hg' | hg'
    · exact ⟨g, by simp, part, hstands, hg'⟩
    · obtain ⟨g, hg, hrest⟩ := ih hg'
      exact ⟨g, by simp [hg], hrest⟩

theorem kept_sublist_flatten {gates : List (Gate α)} {parts : List (List (Gate α))}
    (h : List.Forall₂ StandsFor gates parts) :
    (gates.filter fun g => g.IsKept).Sublist parts.flatten := by
  induction h with
  | nil => exact .slnil
  | @cons g part gates parts hstands _ ih =>
    by_cases hg : g.IsKept
    · rw [List.filter_cons_of_pos (by simpa using hg), hstands.unchanged hg]
      exact ih.cons_cons g
    · rw [List.filter_cons_of_neg (by simpa using hg)]
      exact ih.trans (List.sublist_append_right _ _)

theorem resolvesTo_flatten {gates : List (Gate α)} {parts : List (List (Gate α))}
    (h : List.Forall₂ StandsFor gates parts) : ResolvesTo gates parts.flatten := by
  have hclosed : ∀ g ∈ parts.flatten, g.validate = .ok () ∧ g.IsKept := by
    intro g hg
    obtain ⟨_, -, _, hstands, hmem⟩ := exists_standsFor h hg
    exact ⟨hstands.wellFormed g hmem, hstands.kept g hmem⟩
  exact ⟨⟨parts, h, rfl⟩, hclosed, kept_sublist_flatten h, resolveAll_eq_self hclosed⟩

/-- What stands for the gates of a circuit fits on its register. -/
theorem ResolvesTo.fits {gates native : List (Gate α)} (h : ResolvesTo gates native) {n : ℕ}
    (hfits : ∀ g ∈ gates, g.Fits n) : ∀ g ∈ native, g.Fits n := by
  obtain ⟨parts, hparts, rfl⟩ := h.parts
  intro g' hg'
  obtain ⟨g, hg, part, hstands, hmem⟩ := exists_standsFor hparts hg'
  exact ⟨validate_eq_ok.mp (hstands.wellFormed g' hmem), fun q hq =>
    (hfits g hg).inRange q (hstands.qubits g' hmem hq)⟩

variable (hturns : FiniteTurns α)
include hturns

/-- A gate that is replaced is replaced by turns of its qubit. -/
theorem turns_expand {n : ℕ} {g : Gate α} (h : OnRegister n g) (hkept : ¬g.IsKept)
    (hfinite : ∀ a ∈ g.angle, Scalar.isFinite a = true) :
    ∃ q part, g.qubits = [q] ∧ g.expand = .ok part ∧ ∀ g' ∈ part, Turn q g' := by
  have hpi := hturns.pi
  have hhalf := hturns.halfPi
  have hneg := hturns.neg_halfPi
  cases h with
  | x q => exact ⟨q, _, rfl, rfl, by simp [Turn.rx, Turn.globalPhase, *]⟩
  | y q => exact ⟨q, _, rfl, rfl, by simp [ryAsRx, Turn.rx, Turn.rz, Turn.globalPhase, *]⟩
  | z q => exact ⟨q, _, rfl, rfl, by simp [Turn.rz, Turn.globalPhase, *]⟩
  | h q => exact ⟨q, _, rfl, rfl, by simp [ryAsRx, Turn.rx, Turn.rz, Turn.globalPhase, *]⟩
  | ry q θ =>
    have hθ : Scalar.isFinite θ = true := hfinite θ rfl
    exact ⟨q, _, rfl, rfl, by simp [ryAsRx, Turn.rx, Turn.rz, *]⟩
  | _ =>
    exact absurd (by simp [IsKept, replacedKinds, rx, rz, cnot, cz, swap, iSwap, sqrtISwap,
      globalPhase]) hkept

theorem standsFor_expand {g : Gate α} (h : g.validate = .ok ()) :
    ∃ part, g.expand = .ok part ∧ g.StandsFor part := by
  by_cases hkept : g.IsKept
  · exact ⟨[g], expand_of_isKept hkept, by simpa using h, by simpa using hkept, by simp, fun _ => rfl⟩
  · obtain ⟨n, hform⟩ := exists_onRegister h
    obtain ⟨q, part, hq, hexpand, hparts⟩ := turns_expand hturns hform hkept (validate_eq_ok.mp h).finite
    exact ⟨part, hexpand, fun g' hg' => (hparts g' hg').validate, fun g' hg' => (hparts g' hg').isKept,
      fun g' hg' => hq ▸ (hparts g' hg').qubits_subset, fun h => absurd h hkept⟩

theorem error?_resolve (g : Gate α) : Result.error? g.resolve = Result.error? g.validate := by
  unfold resolve
  rw [Result.error?_check]
  cases h : g.validate with
  | error e => rfl
  | ok _ =>
    obtain ⟨part, hexpand, -⟩ := standsFor_expand hturns h
    rw [hexpand]
    rfl

theorem error?_resolveAll (gates : List (Gate α)) :
    Result.error? (resolveAll gates) = gates.findSome? fun g => Result.error? g.validate := by
  rw [resolveAll, Result.error?_map, Result.error?_mapM]
  exact congrArg (gates.findSome? ·) (funext (error?_resolve hturns))

theorem standsFor_of_resolve {g : Gate α} {part : List (Gate α)} (h : g.resolve = .ok part) :
    g.StandsFor part := by
  obtain ⟨_, hvalid, hexpand⟩ := Result.bind_eq_ok.mp h
  obtain ⟨part', hexpand', hstands⟩ := standsFor_expand hturns hvalid
  obtain rfl := Except.ok.inj (hexpand'.symm.trans hexpand)
  exact hstands

theorem resolvesTo_of_resolveAll {gates native : List (Gate α)} (h : resolveAll gates = .ok native) :
    ResolvesTo gates native := by
  obtain ⟨parts, hparts, rfl⟩ := Result.map_eq_ok.mp h
  exact resolvesTo_flatten ((Result.mapM_eq_ok.mp hparts).imp fun _ _ => standsFor_of_resolve hturns)

omit [Scalar α] hturns

theorem finiteTurns_float : FiniteTurns Float := ⟨rfl, rfl, rfl⟩

/-- Native gates can be put in place of a list of gates if each of them is well-formed, and the error
otherwise is that of the first that is not. To replace again changes nothing, and a circuit stays valid. -/
theorem native_resolution_is_closed (gates : List (Gate Float)) :
    ((∃ native, resolveAll gates = .ok native) ↔ ∀ g ∈ gates, g.validate = .ok ()) ∧
    Result.error? (resolveAll gates) = gates.findSome? (fun g => Result.error? g.validate) ∧
    (∀ native, resolveAll gates = .ok native → ResolvesTo gates native) ∧
    ∀ (n : ℕ) (name : Option String), (⟨n, gates, name⟩ : Circuit Float).validate = .ok () →
      ∃ native, resolveAll gates = .ok native ∧
        (⟨n, native, name⟩ : Circuit Float).validate = .ok () := by
  have herror := error?_resolveAll finiteTurns_float gates
  have hsucceeds : (∃ native, resolveAll gates = .ok native) ↔ ∀ g ∈ gates, g.validate = .ok () := by
    rw [← Result.error?_eq_none, herror, List.findSome?_eq_none_iff]
    refine forall₂_congr fun g _ => Result.error?_eq_none.trans ?_
    exact ⟨fun ⟨_, h⟩ => h, fun h => ⟨(), h⟩⟩
  refine ⟨hsucceeds, herror, fun native => resolvesTo_of_resolveAll finiteTurns_float,
    fun n name hvalid => ?_⟩
  have hfits := Circuit.validate_eq_ok.mp hvalid
  obtain ⟨native, hnative⟩ := hsucceeds.mpr fun g hg => validate_eq_ok.mpr (hfits g hg).toWellFormed
  have hresolves := resolvesTo_of_resolveAll finiteTurns_float hnative
  exact ⟨native, hnative, Circuit.validate_eq_ok.mpr (hresolves.fits hfits)⟩

end Gate
end QubitPulse
