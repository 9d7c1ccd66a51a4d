import QubitPulse.Proofs.SpinChain.Controls
import QubitPulse.Proofs.SpinChain.Reconfiguration
import QubitPulse.Proofs.SpinChain.Segments
import QubitPulse.Scalar.Double

/-!
# Gate lists in two parts

A gate is compiled by itself, so a gate list may be cut anywhere: its two parts compile exactly if the
whole does, with the same results and the same error.
-/
namespace QubitPulse

/-- Running a list that is put together of two: it succeeds if both parts do, with the two results joined,
and fails as the first part that fails. -/
structure Result.Concatenates {α β γ : Type} (run : List β → Result α γ) (Joined : γ → γ → γ → Prop)
    (xs ys : List β) : Prop where
  succeeds_iff : (∃ c, run (xs ++ ys) = .ok c) ↔ (∃ a, run xs = .ok a) ∧ ∃ b, run ys = .ok b
  joined (a b c : γ) : run xs = .ok a → run ys = .ok b → run (xs ++ ys) = .ok c → Joined a b c
  fails_iff (e : Error α) : run (xs ++ ys) = .error e ↔
    run xs = .error e ∨ (∃ a, run xs = .ok a) ∧ run ys = .error e

/-- What is done for the members of a list one by one, and then put together without a failure, may be done
in two parts. -/
theorem Result.concatenates_mapM {α β γ δ : Type} {run : List β → Result α γ} {f : β → Result α δ}
    {make : List δ → γ} {Joined : γ → γ → γ → Prop} {xs ys : List β}
    (hrun : ∀ zs, run zs = (zs.mapM f).map make)
    (hjoined : ∀ as bs, xs.mapM f = .ok as → ys.mapM f = .ok bs →
      Joined (make as) (make bs) (make (as ++ bs))) : Concatenates run Joined xs ys := by
  have hok (zs : List β) : (∃ c, run zs = .ok c) ↔ ∃ cs, zs.mapM f = .ok cs := by
    rw [hrun]
    cases zs.mapM f <;> simp [Except.map]
  have herror (zs : List β) (e : Error α) : run zs = .error e ↔ zs.mapM f = .error e := by
    rw [hrun]
    cases zs.mapM f <;> simp [Except.map]
  refine ⟨?_, fun a b c ha hb hc => ?_, fun e => ?_⟩
  · rw [hok, hok, hok, List.mapM_append]
    cases xs.mapM f <;> cases ys.mapM f <;> simp [bind, Except.bind, pure, Except.pure]
  · rw [hrun, map_eq_ok] at ha hb hc
    obtain ⟨as, has, rfl⟩ := ha
    obtain ⟨bs, hbs, rfl⟩ := hb
    obtain ⟨cs, hcs, rfl⟩ := hc
    rw [List.mapM_append, has, hbs] at hcs
    exact Except.ok.inj hcs ▸ hjoined as bs has hbs
  · rw [herror, herror, herror, hok, List.mapM_append]
    cases xs.mapM f <;> cases ys.mapM f <;> simp [bind, Except.bind, pure, Except.pure]

namespace Decomposer

variable {π α : Type} [Scalar α] {d : Decomposer π α}

/-- The timeline of the whole: the columns of the two parts, and the breakpoints of the first, which go on by
the durations that are appended for the second. -/
structure Continues (d : Decomposer π α) (gates' : List (Gate α)) (t t' whole : Timeline α) : Prop where
  interpolation : t.interpolation = .step ∧ t'.interpolation = .step ∧ whole.interpolation = .step
  rows : whole.numControls = t.numControls ∧ t'.numControls = t.numControls
  columns : whole.columns = t.columns ++ t'.columns
  breakpoints : ∃ b, gates'.foldlM d.appendGate (.new d.numControls) = .ok b ∧ b.finish = .ok t' ∧
    whole.breakpoints = t.breakpoints ++ (Timeline.accumulate t.endTime b.durations).tail

theorem continues_of_segments (hd : d.registry.Uniform) (hd' : d.registry.Appends)
    (hroom : d.numControls ≤ Word.mostBytes) {gates gates' : List (Gate α)}
    {ss ss' : List (α × List α)} (h : d.segments gates = .ok ss) (h' : d.segments gates' = .ok ss') :
    d.Continues gates' (Timeline.steps d.numControls ss) (Timeline.steps d.numControls ss')
      (Timeline.steps d.numControls (ss ++ ss')) where
  interpolation := ⟨rfl, rfl, rfl⟩
  rows := ⟨rfl, rfl⟩
  columns := by
    have hlength := length_of_segments hd hd' h
    have hlength' := length_of_segments hd hd' h'
    rw [Timeline.columns_steps hlength, Timeline.columns_steps hlength', ← List.map_append,
      Timeline.columns_steps]
    exact fun s hs => (List.mem_append.mp hs).elim (hlength s) (hlength' s)
  breakpoints := by
    -- what is left in the builder by the second part alone
    have hbuilder : (⟨d.numControls, ss'.reverse⟩ : PulseBuilder α).segments = ss' :=
      List.reverse_reverse ss'
    refine ⟨⟨d.numControls, ss'.reverse⟩, ?_, ?_, ?_⟩
    · rw [foldlM_appendGate hd gates' rfl, h']
      simp [Except.map, PulseBuilder.new]
    · rw [PulseBuilder.finish, hbuilder, Timeline.ofSegments_eq, if_pos hroom]
    · rw [Timeline.endTime_steps, PulseBuilder.durations, hbuilder]
      exact (congrArg (Timeline.accumulate Scalar.zero) List.map_append).trans
        (Timeline.accumulate_append _ _ _)

theorem concatenates_decompose (hd : d.registry.Uniform) (hd' : d.registry.Appends)
    (hroom : d.numControls ≤ Word.mostBytes) (gates gates' : List (Gate α)) :
    Result.Concatenates d.decompose (d.Continues gates') gates gates' := by
  have hdecompose (gs : List (Gate α)) : d.decompose gs =
      (gs.mapM d.gateSegments).map fun parts => Timeline.steps d.numControls parts.flatten := by
    rw [decompose_eq hd, segments]
    cases gs.mapM d.gateSegments with
    | error e => rfl
    | ok parts => exact (Timeline.ofSegments_eq _ _).trans (if_pos hroom)
  have hsegments {gs : List (Gate α)} {parts : List (List (α × List α))}
      (h : gs.mapM d.gateSegments = .ok parts) : d.segments gs = .ok parts.flatten := by
    rw [segments, h]
    rfl
  refine Result.concatenates_mapM hdecompose fun parts parts' hparts hparts' => ?_
  rw [List.flatten_append]
  exact continues_of_segments hd hd' hroom (hsegments hparts) (hsegments hparts')

end Decomposer

theorem Gate.concatenates_resolveAll {α : Type} [Scalar α] (gates gates' : List (Gate α)) :
    Result.Concatenates resolveAll (fun first second whole => whole = first ++ second) gates gates' :=
  Result.concatenates_mapM (fun _ => rfl) fun _ _ _ _ => List.flatten_append

namespace SpinChain

/-- The controls of a chain are few enough for a timeline to be stored. -/
theorem numControls_le_mostBytes {α : Type} [Scalar α] {n : ℕ} {layout : ChainLayout}
    {given : ChainStrengths α} {c : SpinChain α} (h : build n layout given = .ok c) :
    c.decomposer.numControls ≤ Word.mostBytes := by
  have hsize : n ≤ 8 := (build_eq_ok.mp h).2.1
  calc c.decomposer.numControls = c.controls.length := numControls_of_build h
    _ ≤ 3 * n := (length_controls_of_build h).2
    _ ≤ 24 := by omega
    _ ≤ Word.mostBytes := by decide

/-- On a chain, whatever strengths it was given since it was built, a list of gates has the timeline of its
two parts, one after the other, and fails as the first part that fails; so do the native gates that stand
for it. -/
theorem compiles_in_parts {α : Type} [Scalar α] {n : ℕ} {layout : ChainLayout} {given : ChainStrengths α}
    {c : SpinChain α} (h : build n layout given = .ok c) (calls : List (ChainStrengths α))
    (gates gates' : List (Gate α)) :
    let d := (c.reconfigured calls).decomposer
    Result.Concatenates d.decompose (d.Continues gates') gates gates' ∧
      Result.Concatenates Gate.resolveAll (fun first second whole => whole = first ++ second)
        gates gates' := by
  have hbuilt := build_lastAccepted h calls
  exact ⟨Decomposer.concatenates_decompose (uniform_of_build hbuilt) (appends_of_build hbuilt)
    (numControls_le_mostBytes hbuilt) gates gates', Gate.concatenates_resolveAll gates gates'⟩

/-- On a chain of one the second part has a rotation about z and then one of a qubit that is not there. -/
theorem compiles_in_parts_on_chain_of_one :
    let gates : List (Gate Float) := [.rx 0 1.0]
    let gates' : List (Gate Float) := [.rz 0 0.5, .rx 7 1.0]
    ∃ c : SpinChain Float, build 1 .linear .default = .ok c ∧
      Result.Concatenates c.decomposer.decompose (c.decomposer.Continues gates') gates gates' ∧
      Result.Concatenates Gate.resolveAll (fun first second whole => whole = first ++ second)
        gates gates' := by
  intro gates gates'
  obtain ⟨c, hbuild⟩ : ∃ c : SpinChain Float, build 1 .linear .default = .ok c := ⟨_, rfl⟩
  exact ⟨c, hbuild, compiles_in_parts hbuild [] gates gates'⟩

end SpinChain
end QubitPulse
