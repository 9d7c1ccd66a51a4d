import QubitPulse.Proofs.Processor.History
import QubitPulse.Proofs.SpinChain.Controls
import QubitPulse.Proofs.SpinChain.Obstacles

/-!
# Which circuits load

Three passes over a circuit decide its error: the size, the check of every gate, and the compilation,
which expands every gate. Without rounding each pass has one kind of failure, and the errors that the
handlers and the builder have besides are out of reach.
-/
namespace QubitPulse

namespace Gate

variable {α : Type} [Scalar α]

theorem exists_expand {n : ℕ} {g : Gate α} (h : OnRegister n g) : ∃ native, g.expand = .ok native := by
  cases h <;> exact ⟨_, rfl⟩

/-- Well-formed gates have well-formed native gates in their place. -/
theorem exists_resolveAll {n : ℕ} {gates : List (Gate α)}
    (h : ∀ g ∈ gates, Circuit.checkGate n g = .ok ()) :
    ∃ native, resolveAll gates = .ok native ∧ ∀ g ∈ native, OnRegister n g := by
  obtain ⟨parts, hparts, hforms⟩ : ∃ parts, gates.mapM resolve = .ok parts ∧
      ∀ part ∈ parts, ∀ g ∈ part, OnRegister n g := by
    refine Result.exists_mapM_forall fun g hg => ?_
    have hform := onRegister_of_checkGate (h g hg)
    obtain ⟨native, hnative⟩ := exists_expand hform
    exact ⟨native, Result.bind_eq_ok.mpr ⟨(), (checkGate_eq_ok.mp (h g hg)).1, hnative⟩,
      onRegister_of_mem_expand hform hnative⟩
  refine ⟨parts.flatten, Result.map_eq_ok.mpr ⟨parts, hparts, rfl⟩, fun g hg => ?_⟩
  obtain ⟨part, hpart, hg⟩ := List.mem_flatten.mp hg
  exact hforms part hpart g hg

/-- The check of a gate blames the circuit. -/
theorem isCircuit_of_checkGate {n : ℕ} {g : Gate α} {e : Error α}
    (h : Circuit.checkGate n g = .error e) : e.isCircuit = true := by
  unfold Circuit.checkGate validate at h
  cases hfault : g.firstFault? with
  | some fault =>
    rw [hfault] at h
    cases h
    rfl
  | none =>
    rw [hfault, Result.ok_bind] at h
    split at h
    · cases h
      rfl
    · cases h

omit [Scalar α] in
theorem isCircuit_of_obstacle {couplings : List (ℕ × ℕ)} {g : Gate α} {e : Error α}
    (h : g.obstacle? couplings = some e) : e.isCircuit = true := by
  unfold obstacle? at h
  split at h
  case h_1 | h_2 | h_3 =>
    cases h
    rfl
  case h_4 | h_5 =>
    split_ifs at h
    cases h
    rfl
  case h_6 => cases h

end Gate

namespace Circuit

variable {α : Type} [Scalar α] {n : ℕ} {couplings : List (ℕ × ℕ)} {c : Circuit α}

/-- A circuit for a chain of this size and with these couplings: the gates are well-formed on its
register, no gate entangles a pair other than by an exchange, and every exchange joins a coupled pair. -/
structure Drivable (n : ℕ) (couplings : List (ℕ × ℕ)) (c : Circuit α) : Prop where
  size : c.numQubits = n
  wellFormed : ∀ g ∈ c.gates, g.validate = .ok () ∧ ∀ q ∈ g.qubits, q < n
  native : ∀ g ∈ c.gates, g.kind ≠ .cnot ∧ g.kind ≠ .cz ∧ g.kind ≠ .swap
  coupled : ∀ g ∈ c.gates, g.kind = .iSwap ∨ g.kind = .sqrtISwap →
    ∀ q r, g.targets = [q, r] → Coupled couplings q r

theorem Drivable.checkGate (h : c.Drivable n couplings) : ∀ g ∈ c.gates, checkGate n g = .ok () :=
  fun g hg => Gate.checkGate_eq_ok.mpr (h.wellFormed g hg)

/-- Whether a circuit can be driven depends on which gates it has, not on their order or number. -/
theorem Drivable.of_subset (h : c.Drivable n couplings) {gates : List (Gate α)}
    (hsub : gates ⊆ c.gates) : Drivable n couplings { c with gates := gates } where
  size := h.size
  wellFormed g hg := h.wellFormed g (hsub hg)
  native g hg := h.native g (hsub hg)
  coupled g hg := h.coupled g (hsub hg)

theorem Drivable.append {d : Circuit α} (h : c.Drivable n couplings) (h' : d.Drivable n couplings) :
    Drivable n couplings { c with gates := c.gates ++ d.gates } where
  size := h.size
  wellFormed := List.forall_mem_append.mpr ⟨h.wellFormed, h'.wellFormed⟩
  native := List.forall_mem_append.mpr ⟨h.native, h'.native⟩
  coupled := List.forall_mem_append.mpr ⟨h.coupled, h'.coupled⟩

/-- Why a chain does not load a circuit, if it does not: the size of the circuit, else the error of the
first gate that fails its check, else the obstacle of the first gate that has one. -/
def refusal? (n : ℕ) (couplings : List (ℕ × ℕ)) (c : Circuit α) : Option (Error α) :=
  if c.numQubits ≠ n then some (.invalidConfig (.circuitSize c.numQubits n))
  else (c.gates.findSome? fun g => Result.error? (Circuit.checkGate n g)).or
    (c.gates.findSome? (Gate.obstacle? couplings))

theorem refusal?_eq_none : c.refusal? n couplings = none ↔ c.Drivable n couplings := by
  have hcheck : ∀ g : Gate α, Result.error? (Circuit.checkGate n g) = none ↔
      g.validate = .ok () ∧ ∀ q ∈ g.qubits, q < n := fun g => by
    rw [← Gate.checkGate_eq_ok, Result.error?_eq_none]
    exact ⟨fun ⟨_, h⟩ => h, fun h => ⟨(), h⟩⟩
  have hobstacle : ∀ g : Gate α, (g.validate = .ok () ∧ ∀ q ∈ g.qubits, q < n) →
      (g.obstacle? couplings = none ↔ (g.kind ≠ .cnot ∧ g.kind ≠ .cz ∧ g.kind ≠ .swap) ∧
        (g.kind = .iSwap ∨ g.kind = .sqrtISwap → ∀ q r, g.targets = [q, r] →
          Coupled couplings q r)) := fun g hg =>
    Gate.obstacle?_eq_none (Gate.onRegister_of_checkGate (Gate.checkGate_eq_ok.mpr hg))
  unfold refusal?
  split_ifs with hsize
  · exact ⟨nofun, fun h => absurd h.size hsize⟩
  · rw [Option.or_eq_none_iff, List.findSome?_eq_none_iff, List.findSome?_eq_none_iff]
    simp only [hcheck]
    constructor
    · rintro ⟨hforms, hfree⟩
      exact ⟨not_not.mp hsize, hforms, fun g hg => ((hobstacle g (hforms g hg)).mp (hfree g hg)).1,
        fun g hg => ((hobstacle g (hforms g hg)).mp (hfree g hg)).2⟩
    · intro h
      exact ⟨h.wellFormed, fun g hg =>
        (hobstacle g (h.wellFormed g hg)).mpr ⟨h.native g hg, h.coupled g hg⟩⟩

/-- A refusal speaks of the size of the circuit or blames one of its gates. -/
theorem blames_of_refusal {e : Error α} (h : c.refusal? n couplings = some e) :
    e = .invalidConfig (.circuitSize c.numQubits n) ∨ e.isCircuit = true := by
  unfold refusal? at h
  split_ifs at h with hsize
  · exact .inl (Option.some.inj h).symm
  · rcases Option.or_eq_some_iff.mp h with h | ⟨-, h⟩
    · obtain ⟨g, -, hg⟩ := List.exists_of_findSome?_eq_some h
      exact .inr (Gate.isCircuit_of_checkGate (Result.error?_eq_some.mp hg))
    · obtain ⟨g, -, hg⟩ := List.exists_of_findSome?_eq_some h
      exact .inr (Gate.isCircuit_of_obstacle hg)

end Circuit

namespace SpinChain

variable {n : ℕ} {layout : ChainLayout} {given : ChainStrengths ℝ} {chain : SpinChain ℝ}

/-- A chain compiles well-formed gates, or fails with the first obstacle among them. -/
theorem error?_decompose_of_build (hbuild : build n layout given = .ok chain)
    {gates native : List (Gate ℝ)} (h : ∀ g ∈ gates, Gate.OnRegister n g)
    (hnative : Gate.resolveAll gates = .ok native) :
    Result.error? (chain.decomposer.decompose (Processor.drivenGates native)) =
      gates.findSome? (Gate.obstacle? (layout.couplings n)) := by
  obtain ⟨hlength, hsize⟩ := length_controls_of_build hbuild
  obtain ⟨-, hn, strengths, controls, hstrengths, hcontrols, rfl⟩ := build_eq_ok.mp hbuild
  exact error?_decompose (ChainStrengths.drives_normalize hstrengths) hlength
    (hsize.trans (Nat.mul_le_mul_left 3 hn)) h hnative

end SpinChain

namespace Processor

theorem numQubits_of_build {α : Type} [Scalar α] [ScalarText α] {n : ℕ} {layout : ChainLayout}
    {given : ChainStrengths α} {p : Processor (SpinChain α) α}
    (hbuild : SpinChain.build n layout given = .ok p.device) : p.numQubits = n := by
  obtain ⟨-, -, strengths, controls, -, -, hdevice⟩ := SpinChain.build_eq_ok.mp hbuild
  unfold numQubits
  rw [hdevice]
  rfl

section Chains

variable [ScalarText ℝ] {n : ℕ} {layout : ChainLayout} {given : ChainStrengths ℝ}
  {p : Processor (SpinChain ℝ) ℝ}

/-- Over every device with a qubit there is a processor without noise. -/
theorem ideal_eq_ok {device : SpinChain ℝ} (h : device.numQubits ≠ 0) :
    ideal device = .ok ⟨device, .new device.numQubits, .ideal device.numQubits, none, 0⟩ := by
  have hvalid : (Config.new device.numQubits : Config ℝ).validate = .ok () := by
    unfold Config.validate
    rw [Config.new, if_neg h, if_neg (by simp [Config.defaultRasterStep])]
    rfl
  exact Result.bind_eq_ok.mpr ⟨(), hvalid, if_neg (not_not.mpr rfl)⟩

theorem exists_ideal {chain : SpinChain ℝ} (hbuild : SpinChain.build n layout given = .ok chain) :
    ∃ p, ideal chain = .ok p ∧ p.device = chain ∧ p.config = .new n := by
  obtain ⟨hpos, -, _, _, -, -, rfl⟩ := SpinChain.build_eq_ok.mp hbuild
  exact ⟨_, ideal_eq_ok hpos, rfl, rfl⟩

/-- A load fails with the refusal of the circuit, or not at all. -/
theorem error?_load (hbuild : SpinChain.build n layout given = .ok p.device) (c : Circuit ℝ) :
    Result.error? (p.load c) = c.refusal? n (layout.couplings n) := by
  unfold load nativeGates Circuit.refusal?
  rw [numQubits_of_build hbuild]
  by_cases hsize : c.numQubits ≠ n
  · rw [if_pos hsize, if_pos hsize]
    rfl
  obtain rfl : c.numQubits = n := not_not.mp hsize
  rw [if_neg hsize, if_neg hsize]
  have hchecks : Result.error? c.validate =
      c.gates.findSome? fun g => Result.error? (Circuit.checkGate c.numQubits g) :=
    Result.error?_forM
  rw [← hchecks]
  cases hvalid : c.validate with
  | error e => rfl
  | ok _ =>
    have hgates := Result.forM_eq_ok.mp hvalid
    obtain ⟨native, hnative, -⟩ := Gate.exists_resolveAll hgates
    have hdecompose := SpinChain.error?_decompose_of_build hbuild
      (fun g hg => Gate.onRegister_of_checkGate (hgates g hg)) hnative
    have hresolve : Device.resolve p.device c.gates = .ok native := hnative
    rw [Result.ok_bind, hresolve, Result.ok_bind, Result.error?, Option.none_or, ← hdecompose]
    change Result.error? (p.device.decomposer.decompose (drivenGates native) >>= _) = _
    cases p.device.decomposer.decompose (drivenGates native) <;> rfl

theorem exists_load_iff (hbuild : SpinChain.build n layout given = .ok p.device) {c : Circuit ℝ} :
    (∃ q, p.load c = .ok q) ↔ c.Drivable n (layout.couplings n) := by
  rw [← Result.error?_eq_none, error?_load hbuild, Circuit.refusal?_eq_none]

/-- A circuit loads exactly if the chain can drive it. Otherwise the error is that of the size, else that
of the first ill-formed gate, else that of the first gate with an obstacle, and no other. -/
theorem load_succeeds_iff_or_blames (hbuild : SpinChain.build n layout given = .ok p.device)
    (c : Circuit ℝ) :
    ((∃ q, p.load c = .ok q) ↔ c.Drivable n (layout.couplings n)) ∧
    (∀ e, p.load c = .error e ↔ c.refusal? n (layout.couplings n) = some e) ∧
    ∀ e, p.load c = .error e →
      e = .invalidConfig (.circuitSize c.numQubits n) ∨ e.isCircuit = true := by
  have hload := error?_load hbuild c
  refine ⟨exists_load_iff hbuild, fun e => ?_, fun e he => ?_⟩
  · rw [← Result.error?_eq_some, hload]
  · rw [← Result.error?_eq_some, hload] at he
    exact Circuit.blames_of_refusal he

end Chains

/-- On a line of three qubits the ends are not coupled, in whatever order a gate names them. -/
theorem load_blames_on_chain_of_three :
    ∃ (_ : ScalarText ℝ) (chain : SpinChain ℝ) (p : Processor (SpinChain ℝ) ℝ),
      SpinChain.build 3 .linear .default = .ok chain ∧ ideal chain = .ok p ∧
      (∃ q, p.load ⟨3, [.h 0, .iSwap 2 1], none⟩ = .ok q) ∧
      p.load ⟨3, [.h 0, .iSwap 2 0, .cz 0 1], none⟩ = .error (.topologyViolation 2 0) := by
  let text : ScalarText ℝ :=
    ⟨fun _ => "", fun _ => "", fun _ => "", fun _ => none, fun _ => none⟩
  obtain ⟨chain, hchain⟩ := SpinChain.exists_build_default .linear three_ne_zero (by decide)
  obtain ⟨p, hp, rfl, -⟩ := exists_ideal hchain
  refine ⟨text, p.device, p, hchain, hp, ?_, ?_⟩
  · exact (load_succeeds_iff_or_blames hchain _).1.mpr (Circuit.refusal?_eq_none.mp rfl)
  · exact ((load_succeeds_iff_or_blames hchain _).2.1 _).mpr rfl

end Processor
end QubitPulse
