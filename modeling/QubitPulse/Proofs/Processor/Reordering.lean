import Mathlib.Logic.Relation
import QubitPulse.Proofs.Processor.StrengthFree
import QubitPulse.Proofs.SpinChain.Locality

/-!
# Gates without a common qubit commute

A gate list contributes to a run a duration, a phase and a matrix, and the contributions of two lists in a
row add and multiply. Those of gates without a common qubit can be made in either order, because the
matrices, computed with all truncation, act on the qubits of their gates. So exchanging such neighbours
changes the pulses of a circuit, and nothing that a run of it shows.
-/
namespace QubitPulse

open AnalyticalEvolution (segmentPropagator totalOf)

/-- Without rounding, a timeline of steps lasts as long as its segments together. -/
theorem Timeline.totalDuration_steps (numControls : ℕ) (segments : List (ℝ × List ℝ)) :
    (steps numControls segments).totalDuration = (segments.map Prod.fst).sum := by
  rw [totalDuration, durations_steps, Scalar.sum_real]

namespace Gate

variable {α : Type}

/-- Two neighbouring gates without a common qubit are exchanged. A global phase has no qubit at all. -/
inductive Exchange : List (Gate α) → List (Gate α) → Prop where
  | neighbours (before : List (Gate α)) (g h : Gate α) (after : List (Gate α))
      (disjoint : g.qubits.Disjoint h.qubits) :
      Exchange (before ++ g :: h :: after) (before ++ h :: g :: after)

/-- The orders of a gate list that exchanges of neighbours lead to. -/
def Reordering : List (Gate α) → List (Gate α) → Prop := Relation.ReflTransGen Exchange

theorem Exchange.perm {gates gates' : List (Gate α)} (h : Exchange gates gates') :
    gates.Perm gates' := by
  cases h with
  | neighbours before g h after _ => exact List.Perm.append_left before (.swap h g after)

theorem Reordering.perm {gates gates' : List (Gate α)} (h : Reordering gates gates') :
    gates.Perm gates' := by
  induction h with
  | refl => exact .refl gates
  | tail _ hexchange ih => exact ih.trans hexchange.perm

end Gate

/-- What a gate list contributes to a run: the duration of its segments, the phase that is tracked, and
the matrix by which the segments evolve a register. -/
structure Effect (n : ℕ) where
  duration : ℝ
  phase : ℝ
  matrix : Matrix (Basis n) (Basis n) ℂ

namespace Effect

variable {n : ℕ} {e f : Effect n}

/-- One effect after another. -/
def followedBy (e f : Effect n) : Effect n :=
  ⟨e.duration + f.duration, e.phase + f.phase, f.matrix * e.matrix⟩

theorem followedBy_comm (h : Commute e.matrix f.matrix) : e.followedBy f = f.followedBy e := by
  unfold followedBy
  rw [add_comm e.duration, add_comm e.phase, h.eq]

end Effect

namespace Processor

variable {n : ℕ} {p : Processor (SpinChain ℝ) ℝ}

/-- A gate list is compiled into segments with this effect. -/
def HasEffect (p : Processor (SpinChain ℝ) ℝ) (gates : List (Gate ℝ)) (e : Effect n) : Prop :=
  ∃ native segments us Us, Gate.resolveAll gates = .ok native ∧
    p.device.decomposer.segments (drivenGates native) = .ok segments ∧
    segments.mapM (segmentPropagator Operator.propagator p.device.controls (registerDim n)) = .ok us ∧
    List.Forall₂ Operator.ActsAs us Us ∧
    e = ⟨(segments.map Prod.fst).sum, p.trackedPhase native, Us.reverse.prod⟩

namespace HasEffect

variable {gates gates' : List (Gate ℝ)} {e e' : Effect n}

theorem unique (h : p.HasEffect gates e) (h' : p.HasEffect gates e') : e = e' := by
  obtain ⟨native, segments, us, Us, hnative, hsegments, hus, hacts, rfl⟩ := h
  obtain ⟨native', segments', us', Us', hnative', hsegments', hus', hacts', rfl⟩ := h'
  obtain rfl := Except.ok.inj (hnative.symm.trans hnative')
  obtain rfl := Except.ok.inj (hsegments.symm.trans hsegments')
  obtain rfl := Except.ok.inj (hus.symm.trans hus')
  have hmatrix : Relator.RightUnique (Operator.ActsAs (n := n)) := fun _ _ _ =>
    Operator.ActsAs.matrix_unique
  rw [List.right_unique_forall₂' hmatrix hacts hacts']

/-- The effects of two gate lists in a row follow each other. -/
theorem append (h : p.HasEffect gates e) (h' : p.HasEffect gates' e') :
    p.HasEffect (gates ++ gates') (e.followedBy e') := by
  obtain ⟨native, segments, us, Us, hnative, hsegments, hus, hacts, rfl⟩ := h
  obtain ⟨native', segments', us', Us', hnative', hsegments', hus', hacts', rfl⟩ := h'
  refine ⟨_, segments ++ segments', us ++ us', Us ++ Us', Gate.resolveAll_append hnative hnative', ?_,
    ?_, List.rel_append hacts hacts', ?_⟩
  · rw [drivenGates_append, Decomposer.segments_append, hsegments, hsegments']
    rfl
  · rw [List.mapM_append, hus, hus']
    rfl
  · unfold Effect.followedBy
    rw [List.map_append, List.sum_append, trackedPhase_append, List.reverse_append, List.prod_append]

end HasEffect

section Chains

variable [ScalarText ℝ] {layout : ChainLayout} {given : ChainStrengths ℝ}
  {q : Processor (SpinChain ℝ) ℝ} {c : Circuit ℝ} {gates gates' : List (Gate ℝ)}

/-- Gates that can be driven have an effect, and it is one on their qubits. -/
theorem exists_hasEffect (hbuild : SpinChain.build n layout given = .ok p.device)
    (h : c.Drivable n (layout.couplings n)) {S : Set (Fin n)} (hS : ∀ g ∈ c.gates, g.support n ⊆ S) :
    ∃ e : Effect n, p.HasEffect c.gates e ∧ e.matrix ∈ actingOn S := by
  obtain ⟨q, hload⟩ := (exists_load_iff hbuild).mpr h
  obtain ⟨native, segments, hnative, hsegments, -, -⟩ := segments_of_load hbuild hload
  have hforms := onRegister_of_load hbuild hload hnative
  have hqubits : ∀ g' ∈ drivenGates native, g'.support n ⊆ S := by
    intro g' hg'
    obtain ⟨g, hg, part, hexpand, hmem⟩ :=
      Gate.exists_of_mem_resolveAll hnative (List.mem_of_mem_filter hg')
    have hform := Gate.onRegister_of_checkGate (h.checkGate g hg)
    have hsub := Gate.qubits_subset_of_mem_expand hform hexpand g' hmem
    exact (Gate.support_subset hsub).trans (hS g hg)
  obtain ⟨us, Us, hus, hacts, hmem⟩ := SpinChain.exists_propagators
    (SpinChain.controlsAct_of_build hbuild) (SpinChain.performs_segments hbuild hforms hsegments)
    hqubits
  refine ⟨_, ⟨native, segments, us, Us, hnative, hsegments, hus, hacts, rfl⟩, ?_⟩
  exact Subalgebra.list_prod_mem _ fun U hU => hmem U (List.mem_reverse.mp hU)

/-- Exchanging two neighbours without a common qubit keeps the effect. -/
theorem exists_effect_of_exchange (hbuild : SpinChain.build n layout given = .ok p.device)
    (h : c.Drivable n (layout.couplings n)) (hexchange : Gate.Exchange c.gates gates) :
    ∃ e : Effect n, p.HasEffect c.gates e ∧ p.HasEffect gates e := by
  have hpart : ∀ part ⊆ c.gates, ∃ e : Effect n, p.HasEffect part e := by
    intro part hsub
    obtain ⟨e, he, -⟩ := exists_hasEffect hbuild (h.of_subset hsub) fun g _ => Set.subset_univ _
    exact ⟨e, he⟩
  have hone : ∀ g ∈ c.gates, ∃ e : Effect n, p.HasEffect [g] e ∧ e.matrix ∈ actingOn (g.support n) := by
    intro g hg
    have hsub : [g] ⊆ c.gates := List.cons_subset.mpr ⟨hg, List.nil_subset _⟩
    exact exists_hasEffect hbuild (h.of_subset hsub) (by simp)
  generalize c.gates = order at hexchange hpart hone
  cases hexchange with
  | neighbours before g h after disjoint =>
    obtain ⟨eb, hb⟩ := hpart before (by simp)
    obtain ⟨ea, ha⟩ := hpart after fun g hg => by simp [hg]
    obtain ⟨eg, hg, hgmem⟩ := hone g (by simp)
    obtain ⟨eh, hh, hhmem⟩ := hone h (by simp)
    have hcommute := commute_of_disjoint (Gate.disjoint_support disjoint) hgmem hhmem
    refine ⟨eb.followedBy ((eg.followedBy eh).followedBy ea), hb.append ((hg.append hh).append ha), ?_⟩
    rw [Effect.followedBy_comm hcommute]
    exact hb.append ((hh.append hg).append ha)

/-- Every reordering has the effect of the order in which the gates were given. -/
theorem exists_effect_of_reordering (hbuild : SpinChain.build n layout given = .ok p.device)
    (h : c.Drivable n (layout.couplings n)) (hreorder : Gate.Reordering c.gates gates) :
    ∃ e : Effect n, p.HasEffect c.gates e ∧ p.HasEffect gates e := by
  induction hreorder with
  | refl =>
    obtain ⟨e, he, -⟩ := exists_hasEffect hbuild h fun g _ => Set.subset_univ _
    exact ⟨e, he, he⟩
  | @tail reached gates hreached hexchange ih =>
    obtain ⟨e, he, he'⟩ := ih
    have hdrivable := h.of_subset (Gate.Reordering.perm hreached).symm.subset
    obtain ⟨e', hfirst, hsecond⟩ := exists_effect_of_exchange hbuild hdrivable hexchange
    obtain rfl : e' = e := hfirst.unique he'
    exact ⟨e', he, hsecond⟩

/-- The effect of a circuit is all that a run of it shows. -/
theorem runAnalytical_of_hasEffect (hbuild : SpinChain.build n layout given = .ok p.device)
    (hload : p.load c = .ok q) {e : Effect n} (he : p.HasEffect c.gates e) :
    q.globalPhase = e.phase ∧ (∃ t, q.timeline = some t ∧ t.totalDuration = e.duration) ∧
    ∀ initial, initial.checkDim (registerDim n) = .ok () →
      ∃ r, (p.runAnalytical initial (some c)).2 = .ok r ∧ r.globalPhase = e.phase ∧
        r.total.ActsAs (Complex.exp (e.phase * Complex.I) • e.matrix) ∧
        initial.evolve r.total = .ok r.finalState := by
  obtain ⟨native, segments, us, Us, hnative, hsegments, hus, hacts, rfl⟩ := he
  refine ⟨?_, ?_, fun initial hinitial => ?_⟩
  · obtain ⟨native', _, hnative', -, -, rfl⟩ := segments_of_load hbuild hload
    obtain rfl := Except.ok.inj (hnative.symm.trans hnative')
    rfl
  · obtain ⟨native', segments', hnative', hsegments', -, rfl⟩ := segments_of_load hbuild hload
    obtain rfl := Except.ok.inj (hnative.symm.trans hnative')
    obtain rfl := Except.ok.inj (hsegments.symm.trans hsegments')
    exact ⟨_, rfl, Timeline.totalDuration_steps _ _⟩
  · obtain ⟨⟨native', segments', us', final, hnative', hsegments', hus', _, hfinal⟩, hrun⟩ :=
      exists_stages hbuild hload hinitial
    obtain rfl := Except.ok.inj (hnative.symm.trans hnative')
    obtain rfl := Except.ok.inj (hsegments.symm.trans hsegments')
    obtain rfl := Except.ok.inj (hus.symm.trans hus')
    rw [runAnalytical_of_load hload]
    exact ⟨_, hrun, rfl, AnalyticalEvolution.totalOf_actsAs hacts _, hfinal⟩

/-- A circuit with neighbouring gates exchanged that have no qubit in common, as often as one likes, also
loads. It tracks the same phase and takes as long, and every run of it has the same total propagator, the
same phase and the same final state. -/
theorem runAnalytical_reordered (hbuild : SpinChain.build n layout given = .ok p.device)
    (hload : p.load c = .ok q) (hreorder : Gate.Reordering c.gates gates) :
    ∃ q', p.load { c with gates := gates } = .ok q' ∧ q'.globalPhase = q.globalPhase ∧
      (∃ t t', q.timeline = some t ∧ q'.timeline = some t' ∧ t'.totalDuration = t.totalDuration) ∧
      ∀ initial,
        (initial.checkDim (registerDim n) = .ok () →
          ∃ r, (p.runAnalytical initial (some c)).2 = .ok r) ∧
        (p.runAnalytical initial (some { c with gates := gates })).2.map
            (fun r => (r.total, r.globalPhase, r.finalState)) =
          (p.runAnalytical initial (some c)).2.map
            (fun r => (r.total, r.globalPhase, r.finalState)) := by
  have hdrivable := (exists_load_iff hbuild).mp ⟨q, hload⟩
  have hperm := Gate.Reordering.perm hreorder
  obtain ⟨q', hload'⟩ := (exists_load_iff hbuild).mpr (hdrivable.of_subset hperm.symm.subset)
  obtain ⟨e, he, he'⟩ := exists_effect_of_reordering hbuild hdrivable hreorder
  obtain ⟨hphase, ⟨t, ht, hduration⟩, hrun⟩ := runAnalytical_of_hasEffect hbuild hload he
  obtain ⟨hphase', ⟨t', ht', hduration'⟩, hrun'⟩ := runAnalytical_of_hasEffect hbuild hload' he'
  refine ⟨q', hload', hphase'.trans hphase.symm, ⟨t, t', ht, ht', hduration'.trans hduration.symm⟩,
    fun initial => ?_⟩
  cases hinitial : initial.checkDim (registerDim n) with
  | error e =>
    rw [runAnalytical_misfit hbuild hload hinitial, runAnalytical_misfit hbuild hload' hinitial]
    exact ⟨nofun, rfl⟩
  | ok _ =>
    obtain ⟨r, hr, hrphase, htotal, hfinal⟩ := hrun initial hinitial
    obtain ⟨r', hr', hrphase', htotal', hfinal'⟩ := hrun' initial hinitial
    have hsame : r'.total = r.total := htotal'.unique htotal
    rw [hsame] at hfinal'
    refine ⟨fun _ => ⟨r, hr⟩, ?_⟩
    rw [hr, hr']
    simp only [Except.map, hsame, hrphase, hrphase', Except.ok.inj (hfinal'.symm.trans hfinal)]

end Chains

/-- On a chain of three qubits a Hadamard gate is taken past an exchange of the other two qubits, and a
global phase to the front. -/
theorem runAnalytical_reordered_on_chain_of_three :
    ∃ (_ : ScalarText ℝ) (chain : SpinChain ℝ) (p : Processor (SpinChain ℝ) ℝ)
      (r r' : AnalyticalEvolution ℝ), SpinChain.build 3 .linear .default = .ok chain ∧
      ideal chain = .ok p ∧
      (p.runAnalytical (.basisKet 8 0) (some ⟨3, [.h 0, .iSwap 1 2, .globalPhase 1], none⟩)).2 = .ok r ∧
      (p.runAnalytical (.basisKet 8 0) (some ⟨3, [.globalPhase 1, .iSwap 1 2, .h 0], none⟩)).2 =
        .ok r' ∧
      r'.total = r.total ∧ r'.globalPhase = r.globalPhase ∧ r'.finalState = r.finalState := by
  let text : ScalarText ℝ :=
    ⟨fun _ => "", fun _ => "", fun _ => "", fun _ => none, fun _ => none⟩
  obtain ⟨chain, hchain⟩ := SpinChain.exists_build_default .linear three_ne_zero (by decide)
  obtain ⟨p, hp, rfl, -⟩ := exists_ideal hchain
  let c : Circuit ℝ := ⟨3, [.h 0, .iSwap 1 2, .globalPhase 1], none⟩
  obtain ⟨q, hq⟩ : ∃ q, p.load c = .ok q := (exists_load_iff hchain).mpr (Circuit.refusal?_eq_none.mp rfl)
  have hpair : (Gate.h 0 : Gate ℝ).qubits.Disjoint (Gate.iSwap 1 2 : Gate ℝ).qubits := by
    simp [Gate.qubits, Gate.h, Gate.iSwap]
  have hphase : ∀ g : Gate ℝ, g.qubits.Disjoint (Gate.globalPhase (1 : ℝ)).qubits := fun g =>
    List.disjoint_nil_right _
  have hreorder : Gate.Reordering c.gates [.globalPhase 1, .iSwap 1 2, .h 0] :=
    .tail (.tail (.single (.neighbours [] (.h 0) (.iSwap 1 2) [.globalPhase 1] hpair))
      (.neighbours [.iSwap 1 2] (.h 0) (.globalPhase 1) [] (hphase _)))
      (.neighbours [] (.iSwap 1 2) (.globalPhase 1) [.h 0] (hphase _))
  obtain ⟨q', hq', -, -, hruns⟩ := runAnalytical_reordered hchain hq hreorder
  obtain ⟨hrun, hsame⟩ := hruns (.basisKet 8 0)
  obtain ⟨r, hr⟩ := hrun rfl
  rw [hr] at hsame
  obtain ⟨r', hr', hparts⟩ := Result.map_eq_ok.mp hsame
  obtain ⟨htotal, hphase, hfinal⟩ : r'.total = r.total ∧ r'.globalPhase = r.globalPhase ∧
      r'.finalState = r.finalState := by simpa using hparts
  exact ⟨text, p.device, p, r, r', hchain, hp, hr, hr', htotal, hphase, hfinal⟩

end Processor
end QubitPulse
