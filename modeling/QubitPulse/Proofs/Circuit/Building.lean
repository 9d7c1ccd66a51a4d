import QubitPulse.Proofs.Circuit.Editing

/-!
# Circuits from requests

A builder gives no errors: a gate that fails the check of the register is left out, and building goes on. So
what is built are the gates that were asked for and fit, in the order in which they were asked for. Layers
always fit. A list of gates that is taken as a whole gives the same circuit, without its name.
-/
namespace QubitPulse

variable {α : Type} [Scalar α]

instance (n : ℕ) (g : Gate α) : Decidable (g.Fits n) :=
  decidable_of_iff ((Circuit.checkGate n g).isOk = true) <| by
    rw [← Gate.checkGate_eq_ok_iff_fits]
    cases Circuit.checkGate n g <;> simp [Except.isOk, Except.toBool]

namespace Circuit

theorem offer_eq (c : Circuit α) (g : Gate α) :
    c.offer g = if g.Fits c.numQubits then c.append [g] else c := by
  unfold offer add
  cases hcheck : checkGate c.numQubits g with
  | ok _ => rw [if_pos (Gate.checkGate_eq_ok_iff_fits.mp hcheck)]; rfl
  | error e =>
    have hmisfit : ¬g.Fits c.numQubits := by
      simp [← Gate.checkGate_eq_ok_iff_fits, hcheck]
    rw [if_neg hmisfit]
    rfl

/-- Gates that are offered one after the other are kept as far as they fit. -/
theorem foldl_offer (gs : List (Gate α)) (c : Circuit α) :
    gs.foldl offer c = c.append (gs.filter fun g => g.Fits c.numQubits) := by
  induction gs generalizing c with
  | nil => exact (append_nil c).symm
  | cons g gs ih =>
    rw [List.foldl_cons, ih, offer_eq]
    by_cases hg : g.Fits c.numQubits
    · rw [if_pos hg, append_append, List.filter_cons_of_pos (by simpa using hg)]
      rfl
    · rw [if_neg hg, List.filter_cons_of_neg (by simpa using hg)]

theorem build_eq (n : ℕ) (name : Option String) (requests : List (Request α)) :
    build n name requests =
      ⟨n, (requests.flatMap (Request.gates n)).filter fun g => g.Fits n, name⟩ := by
  rw [build, foldl_offer, append, List.nil_append]

/-! ## Layers -/

theorem fits_h {n q : ℕ} (hq : q < n) : (Gate.h q : Gate α).Fits n :=
  ⟨⟨rfl, rfl, rfl, by simp [Gate.h], by simp [Gate.h, Gate.qubits]⟩, by simpa [Gate.h, Gate.qubits]⟩

theorem fits_iSwap {n q r : ℕ} (hq : q < n) (hr : r < n) (hne : q ≠ r) :
    (Gate.iSwap q r : Gate α).Fits n :=
  ⟨⟨rfl, rfl, rfl, by simp [Gate.iSwap], by simpa [Gate.iSwap, Gate.qubits]⟩,
    by simp [Gate.iSwap, Gate.qubits, hq, hr]⟩

/-- What becomes of a request: a gate is kept if it fits, and a layer is kept as a whole. -/
def Request.kept (n : ℕ) : Request α → List (Gate α)
  | .gate g => if g.Fits n then [g] else []
  | .hLayer => (List.range n).map .h
  | .iSwapChain => (List.range (n - 1)).map fun q => .iSwap q (q + 1)

theorem Request.filter_gates (n : ℕ) (request : Request α) :
    (request.gates n).filter (fun g => g.Fits n) = request.kept n := by
  cases request with
  | gate g => by_cases hg : g.Fits n <;> simp [gates, kept, hg]
  | hLayer =>
    refine List.filter_eq_self.mpr fun g hg => decide_eq_true ?_
    obtain ⟨q, hq, rfl⟩ := List.mem_map.mp hg
    exact fits_h (List.mem_range.mp hq)
  | iSwapChain =>
    refine List.filter_eq_self.mpr fun g hg => decide_eq_true ?_
    obtain ⟨q, hq, rfl⟩ := List.mem_map.mp hg
    have hq := List.mem_range.mp hq
    exact fits_iSwap (by omega) (by omega) (by omega)

theorem filter_requested (n : ℕ) (requests : List (Request α)) :
    (requests.flatMap (Request.gates n)).filter (fun g => g.Fits n) = requests.flatMap (Request.kept n) := by
  rw [List.filter_flatMap]
  exact congrArg (requests.flatMap ·) (funext (Request.filter_gates n))

/-! ## Gates that are taken as a whole -/

theorem ofGates_eq_ok {n : ℕ} {gs : List (Gate α)} {c : Circuit α} :
    ofGates n gs = .ok c ↔ (∀ g ∈ gs, g.Fits n) ∧ c = ⟨n, gs, none⟩ := by
  have happends := appends_addAll gs (new n)
  unfold ofGates
  rw [addAll_eq]
  unfold Update.after Update.result
  cases hresult : InPlace.addAll gs (new n) with
  | ok _ d =>
    rw [hresult] at happends
    cases happends with
    | all passed =>
      have hfits : ∀ g ∈ gs, g.Fits n := fun g hg => Gate.checkGate_eq_ok_iff_fits.mp (passed g hg)
      have hall : (new n).append gs = ⟨n, gs, none⟩ := rfl
      simp only [Except.map, Except.ok.injEq, hall]
      exact ⟨fun h => ⟨hfits, h.symm⟩, fun h => h.2.symm⟩
  | error e d =>
    rw [hresult] at happends
    cases happends with
    | @upTo before rest g _ passed failed =>
      refine iff_of_false (by simp [Except.map]) fun h => ?_
      have hg : checkGate n g = .ok () := Gate.checkGate_eq_ok_iff_fits.mpr (h.1 g (by simp))
      cases hg.symm.trans failed

/-- The circuit that is built has the register and the name that were asked for, and of the gates those that
fit on the register, in order: single gates as far as they fit, and layers as a whole. It is valid. If the
gates can be taken as a whole, they give the same circuit, without a name. -/
theorem build_keeps_acceptable_gates (n : ℕ) (name : Option String) (requests : List (Request α)) :
    let requested := requests.flatMap (Request.gates n)
    let c := build n name requests
    c.numQubits = n ∧ c.name = name ∧ c.gates = requested.filter (fun g => g.Fits n) ∧
      c.gates = requests.flatMap (Request.kept n) ∧ c.validate = .ok () ∧
      ∀ d, ofGates n requested = .ok d → d.name = none ∧ c = { d with name := name } := by
  intro requested c
  have hc : c = ⟨n, requested.filter fun g => g.Fits n, name⟩ := build_eq n name requests
  refine ⟨by rw [hc], by rw [hc], by rw [hc], ?_, validate_eq_ok.mpr fun g hg => ?_, fun d hd => ?_⟩
  · rw [hc]
    exact filter_requested n requests
  · rw [hc] at hg ⊢
    exact of_decide_eq_true (List.mem_filter.mp hg).2
  · obtain ⟨hfits, rfl⟩ := ofGates_eq_ok.mp hd
    have hall : requested.filter (fun g => g.Fits n) = requested :=
      List.filter_eq_self.mpr fun g hg => decide_eq_true (hfits g hg)
    exact ⟨rfl, by rw [hc, hall]⟩

/-- With a name, what is built differs from what the same gates give as a whole. -/
theorem named_circuit_differs :
    let flip : Gate Float := .x 0
    ofGates 1 [flip] = .ok ⟨1, [flip], none⟩ ∧
      build 1 (some "flip") [.gate flip] ≠ ⟨1, [flip], none⟩ := by
  decide

end Circuit
end QubitPulse
