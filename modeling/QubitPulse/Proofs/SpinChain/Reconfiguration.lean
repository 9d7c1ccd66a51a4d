import QubitPulse.Proofs.SpinChain.Build
import QubitPulse.Proofs.SpinChain.Strengths
import QubitPulse.Proofs.Update
import QubitPulse.Scalar.Double

/-!
# Chains that were given other strengths

A chain is given other strengths in place, part by part, and a call that fails undoes nothing. Still it
is at every time the chain that the strengths in force build: those of the last call that succeeded, or
those it was built with.
-/
namespace QubitPulse.SpinChain

variable {α : Type} [Scalar α]

theorem configureInPlace_follows (given : ChainStrengths α) (c : SpinChain α) :
    (configureInPlace given).Follows c (c.configure given) := by
  have hsteps : configureInPlace given c =
      (Update.attempt (given.normalize c.numQubits c.couplings.length) >>= fun strengths => do
        modify fun c => { c with
          decomposer := decomposerOf c.numQubits c.numControls c.couplings strengths }
        modify fun c => { c with given := given }) c := rfl
  unfold configure Update.Follows
  rw [hsteps, Update.attempt_bind]
  cases given.normalize c.numQubits c.couplings.length with
  | error e => rfl
  | ok strengths => exact ⟨(), rfl⟩

/-- The chain after calls for other strengths, whether or not each of them succeeds. -/
def reconfigured (c : SpinChain α) (calls : List (ChainStrengths α)) : SpinChain α :=
  calls.foldl (fun c given => (configureInPlace given).after c) c

/-- The strengths of the last call that succeeds; where none does, those from before the calls. -/
def lastAccepted (c : SpinChain α) (before : ChainStrengths α) :
    List (ChainStrengths α) → ChainStrengths α
  | [] => before
  | given :: calls =>
    match configureInPlace given c with
    | .ok _ d => lastAccepted d given calls
    | .error _ d => lastAccepted d before calls

/-- The parts of a chain agree: what the pulses are computed from are the strengths that it reports, in
angular units, with one value for every qubit or coupled pair. -/
structure Consistent (n : ℕ) (layout : ChainLayout) (given : ChainStrengths α) (c : SpinChain α) :
    Prop where
  layout_eq : c.layout = layout
  given_eq : c.given = given
  size_eq : c.numQubits = n
  couplings_eq : c.couplings = layout.couplings n
  controls_eq : buildControls n (layout.couplings n) = .ok c.controls
  normalized : c.given.normalize c.numQubits c.couplings.length = .ok c.strengths
  lists : c.strengths.Lists "sx" n ∧ c.strengths.Lists "sz" n ∧
    c.strengths.Lists "sxsy" (layout.couplings n).length

variable {n : ℕ} {layout : ChainLayout} {given : ChainStrengths α} {c : SpinChain α}

theorem consistent_of_build (h : build n layout given = .ok c) : c.Consistent n layout given := by
  obtain ⟨-, -, strengths, controls, hstrengths, hcontrols, rfl⟩ := build_eq_ok.mp h
  exact ⟨rfl, rfl, rfl, rfl, hcontrols, hstrengths, ChainStrengths.lists_normalize hstrengths⟩

/-- After any calls the chain is the one that the strengths in force build. -/
theorem build_lastAccepted (h : build n layout given = .ok c) (calls : List (ChainStrengths α)) :
    build n layout (c.lastAccepted given calls) = .ok (c.reconfigured calls) := by
  induction calls generalizing c given with
  | nil => exact h
  | cons other calls ih =>
    have hfollows := configureInPlace_follows other c
    unfold lastAccepted reconfigured
    rw [List.foldl_cons, hfollows.after_eq]
    cases hother : c.configure other with
    | ok d =>
      rw [hother] at hfollows
      obtain ⟨_, hd⟩ := hfollows
      rw [hd]
      exact ih (build_of_configure h hother)
    | error e =>
      rw [hother] at hfollows
      rw [show configureInPlace other c = .error e c from hfollows]
      exact ih h

/-- However a chain was given other strengths, it is the chain that the last accepted ones build, with all
its parts in agreement. The next strengths are accepted if a chain can be built with them, and refused with
the same error otherwise, and then the chain stays as it was. -/
theorem reconfigured_eq_built (h : build n layout given = .ok c) (calls : List (ChainStrengths α)) :
    build n layout (c.lastAccepted given calls) = .ok (c.reconfigured calls) ∧
      (c.reconfigured calls).Consistent n layout (c.lastAccepted given calls) ∧
      ∀ next, (configureInPlace next).result (c.reconfigured calls) =
          (build n layout next).map (fun _ => ()) ∧
        ∀ e d, configureInPlace next (c.reconfigured calls) = .error e d →
          d = c.reconfigured calls := by
  have hbuild := build_lastAccepted h calls
  refine ⟨hbuild, consistent_of_build hbuild, fun next => ?_⟩
  have hfollows := configureInPlace_follows next (c.reconfigured calls)
  refine ⟨?_, fun e d => hfollows.keeps⟩
  rw [hfollows.result_eq, configure_eq_build hbuild next]

/-- A ring of three is given other strengths, then a list for z that is too short, then no strength at
all for the exchange. -/
theorem reconfigured_eq_built_on_ring_of_three :
    let stronger : ChainStrengths Float := { ChainStrengths.default with sx := .scalar 0.5 }
    let calls : List (ChainStrengths Float) := [stronger,
      { ChainStrengths.default with sz := .perQubit [1.0, 2.0] },
      { ChainStrengths.default with sxsy := .scalar 0.0 }]
    ∃ c : SpinChain Float, build 3 .circular .default = .ok c ∧
      c.lastAccepted .default calls = stronger ∧
      build 3 .circular stronger = .ok (c.reconfigured calls) ∧
      (c.reconfigured calls).Consistent 3 .circular stronger := by
  intro stronger calls
  obtain ⟨c, hbuild, haccepted⟩ : ∃ c : SpinChain Float, build 3 .circular .default = .ok c ∧
      c.lastAccepted .default calls = stronger := ⟨_, rfl, rfl⟩
  obtain ⟨hsame, hconsistent, -⟩ := reconfigured_eq_built hbuild calls
  rw [haccepted] at hsame hconsistent
  exact ⟨c, hbuild, haccepted, hsame, hconsistent⟩

end QubitPulse.SpinChain
