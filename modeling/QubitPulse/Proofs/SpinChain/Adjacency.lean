import Mathlib.Data.Sym.Sym2
import QubitPulse.Proofs.SpinChain.Controls
import QubitPulse.Proofs.SpinChain.Reconfiguration
import QubitPulse.Proofs.Parameter

/-!
# Neighbours on a chain

Two qubits of a chain are coupled exactly if they are neighbours. The couplings of different pairs have
different numbers, so that the number that is found for a pair, in either order, is that of its own
exchange control and of its own strength.
-/
namespace QubitPulse

namespace ChainLayout

/-- Qubits next to each other, and the two ends of a ring of more than two. -/
def Adjacent (layout : ChainLayout) (n q r : ℕ) : Prop :=
  ((q : ℤ) - r).natAbs = 1 ∨ layout = .circular ∧ 2 < n ∧ s(q, r) = s(0, n - 1)

/-- The coupled pairs without the order of their qubits. -/
def links (layout : ChainLayout) (n : ℕ) : List (Sym2 ℕ) :=
  (layout.couplings n).map fun p => s(p.1, p.2)

theorem mem_closingPair {layout : ChainLayout} {n : ℕ} {p : ℕ × ℕ} :
    p ∈ layout.closingPair n ↔ layout = .circular ∧ 2 < n ∧ p = (n - 1, 0) := by
  cases layout with
  | linear => simp [closingPair]
  | circular =>
    unfold closingPair
    split_ifs with h <;> simp [h]

theorem mem_couplings {layout : ChainLayout} {n : ℕ} {p : ℕ × ℕ} :
    p ∈ layout.couplings n ↔
      p.1 + 1 < n ∧ p.2 = p.1 + 1 ∨ layout = .circular ∧ 2 < n ∧ p = (n - 1, 0) := by
  rw [couplings, List.mem_append, mem_closingPair, List.mem_map]
  refine or_congr_left ⟨?_, ?_⟩
  · rintro ⟨i, hi, rfl⟩
    have := List.mem_range.mp hi
    exact ⟨by dsimp only; omega, rfl⟩
  · rintro ⟨hlt, hnext⟩
    exact ⟨p.1, List.mem_range.mpr (by omega), Prod.ext rfl hnext.symm⟩

/-- Exactly the neighbours of a register are coupled. -/
theorem mem_links_iff {layout : ChainLayout} {n q r : ℕ} (hq : q < n) (hr : r < n) :
    s(q, r) ∈ layout.links n ↔ layout.Adjacent n q r := by
  unfold links Adjacent
  simp only [List.mem_map, mem_couplings, Sym2.eq_iff]
  constructor
  · rintro ⟨p, ⟨-, hnext⟩ | ⟨hring, hn, rfl⟩, hpair⟩
    · exact .inl (by omega)
    · exact .inr ⟨hring, hn, by dsimp only at hpair; omega⟩
  · rintro (hnext | ⟨hring, hn, hends⟩)
    · rcases Nat.lt_or_ge q r with hlt | hge
      · exact ⟨(q, r), .inl ⟨by dsimp only; omega, by dsimp only; omega⟩, .inl ⟨rfl, rfl⟩⟩
      · exact ⟨(r, q), .inl ⟨by dsimp only; omega, by dsimp only; omega⟩, .inr ⟨rfl, rfl⟩⟩
    · exact ⟨(n - 1, 0), .inr ⟨hring, hn, rfl⟩, by dsimp only; omega⟩

/-- No pair is coupled twice, in whichever order. -/
theorem nodup_links (layout : ChainLayout) (n : ℕ) : (layout.links n).Nodup := by
  unfold links couplings
  rw [List.map_append, List.map_map]
  refine List.Nodup.append ?_ ?_ ?_
  · refine List.nodup_range.map fun i j h => ?_
    simp only [Function.comp, Sym2.eq_iff] at h
    omega
  · cases layout with
    | linear => exact List.nodup_nil
    | circular =>
      unfold closingPair
      split_ifs <;> simp
  · intro link hrow hclosing
    obtain ⟨i, hi, rfl⟩ := List.mem_map.mp hrow
    obtain ⟨p, hp, hlink⟩ := List.mem_map.mp hclosing
    obtain ⟨-, hn, rfl⟩ := mem_closingPair.mp hp
    simp only [Function.comp, Sym2.eq_iff] at hlink
    omega

end ChainLayout

namespace ChainContext

variable {α : Type}

/-- A search for a pair, in either order, is a search for the pair without its order. -/
theorem findIdx?_joins (couplings : List (ℕ × ℕ)) (q r : ℕ) :
    couplings.findIdx? (joins q r) = (couplings.map fun p => s(p.1, p.2)).idxOf? s(q, r) := by
  have hjoins : joins q r = (· == s(q, r)) ∘ fun p : ℕ × ℕ => s(p.1, p.2) := by
    funext p
    rw [Bool.eq_iff_iff]
    simp [joins, Prod.ext_iff]
  rw [List.idxOf?, List.findIdx?_map, hjoins]

/-- Where no link occurs twice, a link is found at its own place only. -/
theorem idxOf?_eq_some_iff {links : List (Sym2 ℕ)} (h : links.Nodup) {link : Sym2 ℕ} {k : ℕ} :
    links.idxOf? link = some k ↔ links[k]? = some link := by
  rw [List.idxOf?_eq_some_iff, List.getElem?_eq_some_iff]
  refine exists_congr fun hk => and_iff_left_of_imp fun hlink j hj hother => hj.ne ?_
  exact (h.getElem_inj_iff).mp (hother.trans hlink.symm)

theorem couplingIndex_eq {c : ChainContext α} {q r : ℕ} (hq : q < c.numQubits) (hr : r < c.numQubits) :
    c.couplingIndex q r = match c.couplings.findIdx? (joins q r) with
      | some k => .ok k
      | none => .error (.topologyViolation q r) := by
  unfold couplingIndex checkQubit
  rw [if_neg (not_le.mpr hq), if_neg (not_le.mpr hr)]
  rfl

theorem couplingIndex_eq_ok {layout : ChainLayout} {n : ℕ} {strengths : ParameterTable α} {q r k : ℕ} :
    couplingIndex ⟨n, layout.couplings n, strengths⟩ q r = .ok k ↔
      q < n ∧ r < n ∧ (layout.links n)[k]? = some s(q, r) := by
  rw [← idxOf?_eq_some_iff (layout.nodup_links n), ChainLayout.links, ← findIdx?_joins]
  constructor
  · intro h
    obtain ⟨_, hq, hrest⟩ := Result.bind_eq_ok.mp h
    obtain ⟨_, hr, -⟩ := Result.bind_eq_ok.mp hrest
    have hq : q < n := by simpa [checkQubit] using hq
    have hr : r < n := by simpa [checkQubit] using hr
    rw [couplingIndex_eq hq hr] at h
    refine ⟨hq, hr, ?_⟩
    split at h
    · next hfound => rw [hfound, Except.ok.inj h]
    · cases h
  · rintro ⟨hq, hr, hfound⟩
    rw [couplingIndex_eq hq hr, hfound]

/-- The number of a coupling is found for its pair alone, and every pair of neighbours has one. -/
structure FindsNeighbours (c : ChainContext α) (layout : ChainLayout) : Prop where
  first_outside : ∀ {q r}, c.numQubits ≤ q →
    c.couplingIndex q r = .error (.gateQubitMismatch q c.numQubits)
  second_outside : ∀ {q r}, q < c.numQubits → c.numQubits ≤ r →
    c.couplingIndex q r = .error (.gateQubitMismatch r c.numQubits)
  found : ∀ {q r}, q < c.numQubits → r < c.numQubits → layout.Adjacent c.numQubits q r →
    ∃ k, c.couplingIndex q r = .ok k
  refused : ∀ {q r}, q < c.numQubits → r < c.numQubits → ¬layout.Adjacent c.numQubits q r →
    c.couplingIndex q r = .error (.topologyViolation q r)
  swapped : ∀ {q r k}, c.couplingIndex q r = .ok k → c.couplingIndex r q = .ok k
  listed : ∀ {q r k}, c.couplingIndex q r = .ok k →
    ∃ hk : k < c.couplings.length, c.couplings[k] = (q, r) ∨ c.couplings[k] = (r, q)
  pair_unique : ∀ {q r q' r' k}, c.couplingIndex q r = .ok k → c.couplingIndex q' r' = .ok k →
    s(q, r) = s(q', r')
  exhaustive : ∀ {k}, k < c.couplings.length → ∃ q r, c.couplingIndex q r = .ok k

theorem findsNeighbours (layout : ChainLayout) (n : ℕ) (strengths : ParameterTable α) :
    FindsNeighbours ⟨n, layout.couplings n, strengths⟩ layout where
  first_outside hq := by
    unfold couplingIndex checkQubit
    rw [if_pos hq]
    rfl
  second_outside hq hr := by
    unfold couplingIndex checkQubit
    rw [if_neg (not_le.mpr hq), if_pos hr]
    rfl
  found hq hr hadjacent := by
    obtain ⟨k, hk⟩ := List.getElem?_of_mem ((ChainLayout.mem_links_iff hq hr).mpr hadjacent)
    exact ⟨k, couplingIndex_eq_ok.mpr ⟨hq, hr, hk⟩⟩
  refused hq hr hadjacent := by
    have hnone : (layout.couplings n).findIdx? (joins _ _) = none :=
      (findIdx?_joins _ _ _).trans
        (List.idxOf?_eq_none_iff.mpr (mt (ChainLayout.mem_links_iff hq hr).mp hadjacent))
    rw [couplingIndex_eq hq hr]
    simp only [hnone]
  swapped h := by
    obtain ⟨hq, hr, hk⟩ := couplingIndex_eq_ok.mp h
    exact couplingIndex_eq_ok.mpr ⟨hr, hq, hk.trans (congrArg some Sym2.eq_swap)⟩
  listed h := by
    obtain ⟨-, -, hlink⟩ := couplingIndex_eq_ok.mp h
    rw [ChainLayout.links, List.getElem?_map, Option.map_eq_some_iff] at hlink
    obtain ⟨p, hp, hlink⟩ := hlink
    obtain ⟨hk, rfl⟩ := List.getElem?_eq_some_iff.mp hp
    rw [Sym2.eq_iff] at hlink
    exact ⟨hk, hlink.imp (fun h => Prod.ext h.1 h.2) fun h => Prod.ext h.1 h.2⟩
  pair_unique h h' := by
    obtain ⟨-, -, hk⟩ := couplingIndex_eq_ok.mp h
    obtain ⟨-, -, hk'⟩ := couplingIndex_eq_ok.mp h'
    exact Option.some.inj (hk.symm.trans hk')
  exhaustive hk := by
    obtain ⟨hq, hr, -⟩ := SpinChain.lt_of_mem_couplings (List.getElem_mem hk)
    refine ⟨_, _, couplingIndex_eq_ok.mpr ⟨hq, hr, ?_⟩⟩
    rw [ChainLayout.links, List.getElem?_map, List.getElem?_eq_getElem hk]
    rfl

/-- An exchange gate drives the control of the coupling that is found for its pair. -/
theorem exchange_eq_drive [Scalar α] {c : ChainContext α} (kind : GateKind) {q r k : ℕ} {angle s : α}
    (hk : c.couplingIndex q r = .ok k) (hs : c.strengths.valueAt "sxsy" k = .ok s) (b : PulseBuilder α) :
    exchange angle c ⟨kind, [q, r], [], none⟩ b = b.drive (angle / s) [(2 * c.numQubits + k, -s)] := by
  unfold exchange
  simp only [hk, hs, Result.ok_bind]
  rfl

end ChainContext

namespace Operator

variable {α : Type} [Scalar α]

theorem tensor_congr {factors factors' : List (ℕ × Operator α)}
    (h : ∀ q, factorAt factors q = factorAt factors' q) (n : ℕ) : tensor factors n = tensor factors' n := by
  induction n with
  | zero => rfl
  | succ n ih => rw [tensor, tensor, ih, h]

/-- One factor on two qubits, in either order of the list. -/
theorem factorAt_pair_comm (q r : ℕ) (op : Operator α) (s : ℕ) :
    factorAt [(q, op), (r, op)] s = factorAt [(r, op), (q, op)] s := by
  by_cases hq : q = s <;> by_cases hr : r = s <;> simp [factorAt, hq, hr]

end Operator

namespace SpinChain
open Operator

variable {α : Type} [Scalar α] {n : ℕ} {couplings : List (ℕ × ℕ)} {controls : List (ControlOperator α)}

theorem exchangeControl_comm {q r : ℕ} (hq : q < n) (hr : r < n) (k : ℕ) :
    (exchangeControl n ((q, r), k) : Result α (ControlOperator α)) = exchangeControl n ((r, q), k) := by
  have hpair : ∀ op : Operator α, op.rows = 2 → op.cols = 2 →
      embedFactors [(q, op), (r, op)] n = embedFactors [(r, op), (q, op)] n := by
    intro op hrows hcols
    rw [embedFactors_eq_ok (by simp [hq, hr, hrows, hcols]),
      embedFactors_eq_ok (by simp [hq, hr, hrows, hcols]), tensor_congr (factorAt_pair_comm q r op)]
  unfold exchangeControl
  simp only [hpair sigmaX rfl rfl, hpair sigmaY rfl rfl]

/-- The exchange controls follow those of the qubits, in the order of the couplings. -/
theorem exists_control_of_coupling (h : buildControls n couplings = .ok controls) {k : ℕ}
    (hk : k < couplings.length) : ∃ control, controls[2 * n + k]? = some control ∧
      exchangeControl n (couplings[k], k) = .ok control := by
  obtain ⟨xs, hxs, h⟩ := Result.bind_eq_ok.mp h
  obtain ⟨zs, hzs, h⟩ := Result.bind_eq_ok.mp h
  obtain ⟨exchanges, hexchanges, h⟩ := Result.bind_eq_ok.mp h
  obtain rfl := (Except.ok.inj h).symm
  have hxs := (Result.mapM_eq_ok.mp hxs).length_eq
  have hzs := (Result.mapM_eq_ok.mp hzs).length_eq
  have hexchanges := Result.mapM_eq_ok.mp hexchanges
  have hlength := hexchanges.length_eq
  simp only [List.length_range, List.length_zipIdx] at hxs hzs hlength
  have hk' : k < exchanges.length := by omega
  refine ⟨exchanges[k], ?_, ?_⟩
  · have hplace : 2 * n + k - (xs ++ zs).length = k := by
      rw [List.length_append]
      omega
    rw [List.getElem?_append_right (by rw [List.length_append]; omega), hplace]
    exact List.getElem?_eq_getElem hk'
  · have hcontrol := hexchanges.get (by simpa using hk) hk'
    simpa using hcontrol

/-- The number of a coupling belongs to a pair of qubits: the control of this number is the exchange of the
pair, and its strength is what an exchange gate on the pair drives this control with. -/
structure Exchanges (c : SpinChain α) (q r k : ℕ) : Prop where
  control : ∃ control xx yy, c.controls[2 * c.numQubits + k]? = some control ∧
    control.label = s!"sxsy{k}" ∧
    embedFactors [(q, sigmaX), (r, sigmaX)] c.numQubits = .ok xx ∧
    embedFactors [(q, sigmaY), (r, sigmaY)] c.numQubits = .ok yy ∧ control.matrix = xx.add yy
  strength : ∃ x s, (c.given.sxsy.broadcast c.couplings.length)[k]? = some x ∧
    s = x * ParamValue.fullTurn ∧ c.strengths.valueAt "sxsy" k = .ok s ∧
    ∀ b, c.decomposer.appendGate b (.iSwap q r) =
        b.drive (Scalar.pi / Scalar.ofNat 4 / s) [(2 * c.numQubits + k, -s)] ∧
      c.decomposer.appendGate b (.sqrtISwap q r) =
        b.drive (Scalar.pi / Scalar.ofNat 8 / s) [(2 * c.numQubits + k, -s)]

omit [Scalar α] in
/-- A control that was made has the label and the matrix that were given. -/
theorem new_eq_ok {label : String} {matrix : Operator α} {control : ControlOperator α}
    (h : ControlOperator.new label matrix n = .ok control) :
    control.label = label ∧ control.matrix = matrix := by
  unfold ControlOperator.new at h
  split_ifs at h
  obtain rfl := Except.ok.inj h
  exact ⟨rfl, rfl⟩

/-- The strength of a coupling is the one that was given in its place. -/
theorem exists_strength {given : ChainStrengths α} {m k : ℕ} {strengths : ParameterTable α}
    (h : given.normalize n m = .ok strengths) (hk : k < m) :
    ∃ x, (given.sxsy.broadcast m)[k]? = some x ∧
      strengths.valueAt "sxsy" k = .ok (x * ParamValue.fullTurn) := by
  obtain ⟨_, _, es, -, -, ⟨hes, hlength, -⟩, rfl⟩ := ChainStrengths.normalize_eq_ok.mp h
  have hk : k < es.length := hlength ▸ hk
  refine ⟨es[k], ?_, ParameterTable.valueAt_eq_ok.mpr
    ⟨es.map (· * ParamValue.fullTurn), by simp [ParameterTable.find?_insert], by simp [hk]⟩⟩
  rw [← ParamValue.broadcast_of_expand hes]
  exact List.getElem?_eq_getElem hk

/-- What the number of a coupling means does not depend on the order in which its pair is named. -/
theorem exchanges_of_build {layout : ChainLayout} {given : ChainStrengths α} {c : SpinChain α}
    (h : build n layout given = .ok c) {q r k : ℕ} (hindex : c.couplingIndex q r = .ok k) :
    c.Exchanges q r k := by
  obtain ⟨-, -, strengths, controls, hstrengths, hcontrols, rfl⟩ := build_eq_ok.mp h
  obtain ⟨hq, hr, -⟩ := ChainContext.couplingIndex_eq_ok.mp hindex
  obtain ⟨hk, hpair⟩ := (ChainContext.findsNeighbours layout n strengths).listed hindex
  constructor
  · obtain ⟨control, hcontrol, hexchange⟩ := exists_control_of_coupling hcontrols hk
    have hexchange : exchangeControl n ((q, r), k) = .ok control := by
      rcases hpair with hpair | hpair
      · rwa [← hpair]
      · rwa [exchangeControl_comm hq hr, ← hpair]
    obtain ⟨xx, hxx, hexchange⟩ := Result.bind_eq_ok.mp hexchange
    obtain ⟨yy, hyy, hnew⟩ := Result.bind_eq_ok.mp hexchange
    obtain ⟨hlabel, hmatrix⟩ := new_eq_ok hnew
    exact ⟨control, xx, yy, hcontrol, hlabel, hxx, hyy, hmatrix⟩
  · obtain ⟨x, hx, hvalue⟩ := exists_strength hstrengths hk
    exact ⟨x, _, hx, rfl, hvalue, fun b => ⟨ChainContext.exchange_eq_drive .iSwap hindex hvalue b,
      ChainContext.exchange_eq_drive .sqrtISwap hindex hvalue b⟩⟩

/-- Coupling lookup is adjacency, and the control and the strength of the number that it finds are those of
the pair. -/
theorem coupling_lookup_is_adjacency (layout : ChainLayout) (n : ℕ) :
    (∀ strengths : ParameterTable α,
      ChainContext.FindsNeighbours ⟨n, layout.couplings n, strengths⟩ layout) ∧
    ∀ (given : ChainStrengths α) (c : SpinChain α), build n layout given = .ok c →
      ∀ q r k, c.couplingIndex q r = .ok k → c.Exchanges q r k :=
  ⟨ChainContext.findsNeighbours layout n, fun _ _ hbuild _ _ _ => exchanges_of_build hbuild⟩

/-- The closing pair of a ring of three is listed last, and backwards. -/
theorem coupling_lookup_on_ring_of_three :
    ∃ c : SpinChain Float, build 3 .circular .default = .ok c ∧ c.couplings = [(0, 1), (1, 2), (2, 0)] ∧
      c.couplingIndex 0 2 = .ok 2 ∧ c.couplingIndex 2 0 = .ok 2 ∧ c.Exchanges 0 2 2 := by
  obtain ⟨c, hbuild, hcouplings, hindex⟩ : ∃ c : SpinChain Float, build 3 .circular .default = .ok c ∧
      c.couplings = [(0, 1), (1, 2), (2, 0)] ∧ c.couplingIndex 0 2 = .ok 2 := ⟨_, rfl, rfl, rfl⟩
  obtain ⟨hneighbours, hexchanges⟩ := coupling_lookup_is_adjacency (α := Float) .circular 3
  obtain ⟨-, -, strengths, controls, -, -, rfl⟩ := build_eq_ok.mp hbuild
  exact ⟨_, hbuild, hcouplings, hindex, (hneighbours strengths).swapped hindex,
    hexchanges _ _ hbuild _ _ _ hindex⟩

end SpinChain
end QubitPulse
