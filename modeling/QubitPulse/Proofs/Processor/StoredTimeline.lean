import QubitPulse.Proofs.Processor.History
import QubitPulse.Proofs.SpinChain.Segments
import QubitPulse.Proofs.Timeline.Document

/-!
# Timelines that a load stores

The timeline of a loaded circuit is stored without the check that a timeline given by the user has to
pass. Whether it would pass depends on its end alone: every segment was checked, but the sum of their
durations can leave the range of doubles.
-/
namespace QubitPulse
open Json.Value (ReadsBack)

namespace Decomposer

variable {π : Type}

/-- What a decomposition gives is valid exactly if it ends at a finite time. Just then a processor with
these controls accepts it as a given timeline, and just then its document gives it again; of the
numbers in the document it is supposed that finite ones are read from their numerals as they were. -/
theorem decompose_accepted_iff {d : Decomposer π Float} (hd : d.registry.Appends)
    {gates : List (Gate Float)} {t : Timeline Float} (h : d.decompose gates = .ok t) :
    (t.validate = if Scalar.isFinite t.endTime then .ok ()
      else .error (.invalidPulse .nonFiniteBreakpoints)) ∧
    (∀ {δ ρ : Type} [Device δ Float ρ] (p : Processor δ Float),
      Device.numControls p.device = d.numControls →
        p.setTimeline t = if Scalar.isFinite t.endTime
          then .ok { p with timeline := some t, globalPhase := Scalar.zero }
          else .error (.invalidPulse .nonFiniteBreakpoints)) ∧
    (t.Addressable →
      (∀ x ∈ t.breakpoints ++ t.coeffs.entries.toList, Scalar.isFinite x = true → ReadsBack x) →
        Timeline.ofDocument t.toDocument = if Scalar.isFinite t.endTime then .ok t
          else .error (.jsonError "timeline")) := by
  obtain ⟨hrows, hvalid⟩ := validate_decompose hd h
  refine ⟨hvalid, fun p hp => ?_, fun hsize hread => ?_⟩
  · split_ifs at hvalid ⊢ with hfin
    · exact Processor.setTimeline_eq_ok.mpr ⟨hvalid, hrows.trans hp.symm, rfl⟩
    · unfold Processor.setTimeline
      rw [hvalid]
      rfl
  · split_ifs at hvalid ⊢ with hfin
    · obtain ⟨hbreakpoints, hcoeffs⟩ := Timeline.finite_of_validate hvalid
      exact Timeline.ofDocument_toDocument hvalid hsize
        (fun x hx => hread x (by simp [hx]) (hbreakpoints x hx))
        fun x hx => hread x (by simp [hx]) (hcoeffs x hx)
    · exact Timeline.ofDocument_toDocument_eq_error hsize
        ⟨t.endTime, Timeline.endTime_mem hfin, by simpa using hfin⟩

/-- One gate on a chain of one qubit. -/
theorem decompose_accepted_on_chain_of_one :
    ∃ (chain : SpinChain Float) (t : Timeline Float),
      SpinChain.build 1 .linear .default = .ok chain ∧
      chain.decomposer.registry.Appends ∧ chain.decomposer.decompose [.rx 0 1.0] = .ok t ∧
      t.validate = .ok () := by
  have hrun : (do
      let chain ← SpinChain.build 1 .linear .default
      let t ← chain.decomposer.decompose [.rx 0 1.0]
      return Scalar.isFinite t.endTime) = (.ok true : Result Float Bool) := by
    decide +kernel
  obtain ⟨chain, hchain, hrun⟩ := Result.bind_eq_ok.mp hrun
  obtain ⟨t, ht, hfin⟩ := Result.bind_eq_ok.mp hrun
  have happends := SpinChain.appends_of_build hchain
  refine ⟨chain, t, hchain, happends, ht, ?_⟩
  rw [(decompose_accepted_iff happends ht).1, if_pos (Except.ok.inj hfin)]

/-- Eight gates on a qubit that is driven so faintly that one of them takes a good part of the range of
doubles. Each was accepted, but the timeline that is stored ends at infinity. -/
theorem stored_timeline_can_end_at_infinity :
    (do
      let chain ← SpinChain.build 1 .linear { ChainStrengths.default with sx := .scalar 1e-308 }
      let p ← Processor.ideal chain
      let q ← p.load ⟨1, List.replicate 8 (.x 0), none⟩
      let t : Timeline Float ← q.storedTimeline
      return (t.validate, (p.setTimeline t).isOk)) =
    (.ok (.error (.invalidPulse .nonFiniteBreakpoints), false) :
      Result Float (Result Float Unit × Bool)) := by
  decide +kernel

end Decomposer
end QubitPulse
