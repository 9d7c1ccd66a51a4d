import QubitPulse.Circuit.Builder
import QubitPulse.Circuit.InPlace
import QubitPulse.Proofs.Gate.Validation
import QubitPulse.Proofs.Update
import QubitPulse.Scalar.Double

/-!
# Circuits and their edits

A circuit starts out empty, from a list of gates, from a document or from requests, and is then edited
where it is held, by calls some of which fail. It is valid at every time and keeps its register. Only a
list of gates that is refused leaves a trace: the gates before the first that fails the check.
-/
namespace QubitPulse.Circuit

variable {α : Type}

/-- The circuit with more gates at its end. -/
def append (c : Circuit α) (gs : List (Gate α)) : Circuit α := { c with gates := c.gates ++ gs }

theorem append_nil (c : Circuit α) : c.append [] = c := by
  simp [append]

theorem append_append (c : Circuit α) (gs gs' : List (Gate α)) :
    (c.append gs).append gs' = c.append (gs ++ gs') := by
  simp [append]

/-- What can be asked of a circuit that is held. -/
inductive Edit (α : Type) where
  | add (g : Gate α)
  | addAll (gs : List (Gate α))
  | clear
  | setName (name : String)

variable [Scalar α]

def Edit.perform : Edit α → Update (Circuit α) α Unit
  | add g => InPlace.add g
  | addAll gs => InPlace.addAll gs
  | clear => InPlace.clear
  | setName name => InPlace.setName name

/-- The circuit after edits, whether or not each of them succeeds. -/
def edited (c : Circuit α) (edits : List (Edit α)) : Circuit α :=
  edits.foldl (fun c edit => edit.perform.after c) c

/-- How gates are appended: all of them if they pass the check of the register, and otherwise those before
the first that fails it, whose error is given. -/
inductive Appends (c : Circuit α) : List (Gate α) → EStateM.Result (Error α) (Circuit α) Unit → Prop where
  | all {gs : List (Gate α)} (passed : ∀ g ∈ gs, checkGate c.numQubits g = .ok ()) :
      Appends c gs (.ok () (c.append gs))
  | upTo {before rest : List (Gate α)} {g : Gate α} {e : Error α}
      (passed : ∀ b ∈ before, checkGate c.numQubits b = .ok ())
      (failed : checkGate c.numQubits g = .error e) :
      Appends c (before ++ g :: rest) (.error e (c.append before))

/-! ## Appending gates -/

theorem Appends.cons {c : Circuit α} {g : Gate α} {gs : List (Gate α)}
    {r : EStateM.Result (Error α) (Circuit α) Unit} (hg : checkGate c.numQubits g = .ok ())
    (h : (c.append [g]).Appends gs r) : c.Appends (g :: gs) r := by
  cases h with
  | all passed =>
    rw [append_append]
    exact .all (List.forall_mem_cons.mpr ⟨hg, passed⟩)
  | upTo passed failed =>
    rw [append_append]
    exact .upTo (List.forall_mem_cons.mpr ⟨hg, passed⟩) failed

theorem add_apply (g : Gate α) (c : Circuit α) : InPlace.add g c =
    match checkGate c.numQubits g with
    | .ok _ => .ok () (c.append [g])
    | .error e => .error e c := by
  have hsteps : InPlace.add g c = (Update.attempt (checkGate c.numQubits g) >>= fun _ =>
      (modify fun c => { c with gates := c.gates ++ [g] } : Update (Circuit α) α Unit)) c := rfl
  rw [hsteps, Update.attempt_bind]
  cases checkGate c.numQubits g <;> rfl

theorem addAll_cons (g : Gate α) (gs : List (Gate α)) (c : Circuit α) : InPlace.addAll (g :: gs) c =
    match checkGate c.numQubits g with
    | .ok _ => InPlace.addAll gs (c.append [g])
    | .error e => .error e c := by
  rw [InPlace.addAll, Update.bind_apply, add_apply]
  cases checkGate c.numQubits g <;> rfl

theorem appends_addAll (gs : List (Gate α)) (c : Circuit α) : c.Appends gs (InPlace.addAll gs c) := by
  induction gs generalizing c with
  | nil =>
    have hall : c.Appends [] (.ok () (c.append [])) := .all (by simp)
    rwa [append_nil] at hall
  | cons g gs ih =>
    rw [addAll_cons]
    cases hg : checkGate c.numQubits g with
    | ok _ => exact .cons hg (ih (c.append [g]))
    | error e =>
      have hfirst : c.Appends ([] ++ g :: gs) (.error e (c.append [])) := .upTo (by simp) hg
      rwa [append_nil] at hfirst

theorem addAll_singleton (g : Gate α) (c : Circuit α) : InPlace.addAll [g] c = InPlace.add g c := by
  rw [addAll_cons, add_apply]
  cases checkGate c.numQubits g <;> rfl

/-- Whether or not they fail, the gates of a list are appended as far as they pass the check. -/
theorem exists_after_addAll (gs : List (Gate α)) (c : Circuit α) :
    ∃ taken, (InPlace.addAll gs).after c = c.append taken ∧
      ∀ g ∈ taken, checkGate c.numQubits g = .ok () := by
  have happends := appends_addAll gs c
  unfold Update.after
  cases hresult : InPlace.addAll gs c with
  | ok _ d =>
    rw [hresult] at happends
    cases happends with
    | all passed => exact ⟨gs, rfl, passed⟩
  | error e d =>
    rw [hresult] at happends
    cases happends with
    | upTo passed failed => exact ⟨_, rfl, passed⟩

/-- The operation that returns the circuit and the error agrees with the one in place. -/
theorem addAll_eq (gs : List (Gate α)) (c : Circuit α) :
    c.addAll gs = ((InPlace.addAll gs).after c, (InPlace.addAll gs).result c) := by
  have hsteps : InPlace.addAll gs c =
      match (accepted c.numQubits gs).2 with
      | .ok _ => .ok () (c.append (accepted c.numQubits gs).1)
      | .error e => .error e (c.append (accepted c.numQubits gs).1) := by
    induction gs generalizing c with
    | nil => rw [accepted, append_nil]; rfl
    | cons g gs ih =>
      rw [addAll_cons, accepted]
      cases checkGate c.numQubits g with
      | error e => rw [append_nil]
      | ok _ =>
        rw [ih]
        simp only [append_append]
        rfl
  unfold addAll Update.after Update.result
  rw [hsteps]
  obtain ⟨taken, r⟩ := accepted c.numQubits gs
  cases r <;> rfl

/-! ## Validity -/

theorem validate_eq_ok {c : Circuit α} :
    c.validate = .ok () ↔ ∀ g ∈ c.gates, g.Fits c.numQubits := by
  unfold validate
  simp only [Result.forM_eq_ok, Gate.checkGate_eq_ok_iff_fits]

theorem validate_append {c : Circuit α} {gs : List (Gate α)} (h : c.validate = .ok ())
    (hgs : ∀ g ∈ gs, checkGate c.numQubits g = .ok ()) : (c.append gs).validate = .ok () := by
  unfold validate at h ⊢
  rw [Result.forM_eq_ok] at h ⊢
  intro g hg
  rcases List.mem_append.mp hg with hg | hg
  · exact h g hg
  · exact hgs g hg

/-- An edit keeps a circuit valid and leaves its register alone. -/
theorem validate_perform (edit : Edit α) {c : Circuit α} (h : c.validate = .ok ()) :
    (edit.perform.after c).validate = .ok () ∧ (edit.perform.after c).numQubits = c.numQubits := by
  have appended (gs : List (Gate α)) : ((InPlace.addAll gs).after c).validate = .ok () ∧
      ((InPlace.addAll gs).after c).numQubits = c.numQubits := by
    obtain ⟨taken, htaken, hpassed⟩ := exists_after_addAll gs c
    rw [htaken]
    exact ⟨validate_append h hpassed, rfl⟩
  cases edit with
  | add g =>
    have hsingle : (InPlace.add g).after c = (InPlace.addAll [g]).after c := by
      rw [Update.after, Update.after, addAll_singleton]
    rw [Edit.perform, hsingle]
    exact appended [g]
  | addAll gs => exact appended gs
  | clear => exact ⟨rfl, rfl⟩
  | setName name => exact ⟨h, rfl⟩

theorem validate_edited (edits : List (Edit α)) {c : Circuit α} (h : c.validate = .ok ()) :
    (c.edited edits).validate = .ok () ∧ (c.edited edits).numQubits = c.numQubits := by
  induction edits generalizing c with
  | nil => exact ⟨h, rfl⟩
  | cons edit edits ih =>
    obtain ⟨hvalid, hsize⟩ := validate_perform edit h
    obtain ⟨hvalid', hsize'⟩ := ih hvalid
    exact ⟨hvalid', hsize'.trans hsize⟩

/-- Building by requests is appending one gate after the other, whether or not each of them passes. -/
theorem build_eq_edited (n : ℕ) (name : Option String) (requests : List (Request α)) :
    build n name requests =
      edited ⟨n, [], name⟩ ((requests.flatMap (Request.gates n)).map .add) := by
  have hoffer : offer = fun (c : Circuit α) g => (Edit.perform (.add g)).after c := by
    funext c g
    rw [Edit.perform, Update.after, add_apply]
    unfold offer add
    cases checkGate c.numQubits g <;> rfl
  unfold build edited
  rw [List.foldl_map, hoffer]

variable [ScalarText α]

/-- A document gives a circuit if it holds one that passes the check. -/
theorem ofDocument_eq_ok {document : String} {c : Circuit α} : ofDocument document = .ok c ↔
    (Json.Value.parse? document).bind ofJson? = some c ∧ c.validate = .ok () := by
  unfold ofDocument
  cases (Json.Value.parse? document).bind (ofJson? (α := α)) with
  | none => simp
  | some d => simp [Result.checked_eq_ok fun c : Circuit α => c.validate]

/-- The ways a circuit comes about. -/
inductive Made : Circuit α → Prop where
  | new (n : ℕ) : Made (.new n)
  | withName (n : ℕ) (name : String) : Made (.withName n name)
  | ofGates {n : ℕ} {gs : List (Gate α)} {c : Circuit α} (h : ofGates n gs = .ok c) : Made c
  | ofDocument {document : String} {c : Circuit α} (h : ofDocument document = .ok c) : Made c
  | build (n : ℕ) (name : Option String) (requests : List (Request α)) : Made (.build n name requests)

theorem Made.validate {c : Circuit α} (h : Made c) : c.validate = .ok () := by
  have hempty (n : ℕ) (name : Option String) : (⟨n, [], name⟩ : Circuit α).validate = .ok () := rfl
  cases h with
  | new n => exact hempty n none
  | withName n name => exact hempty n (some name)
  | @ofGates n gs _ h =>
    unfold Circuit.ofGates at h
    rw [addAll_eq] at h
    obtain ⟨_, -, rfl⟩ := Result.map_eq_ok.mp h
    exact (validate_perform (.addAll gs) (hempty n none)).1
  | ofDocument h => exact (ofDocument_eq_ok.mp h).2
  | build n name requests =>
    rw [build_eq_edited]
    exact (validate_edited _ (hempty n name)).1

/-- However a circuit came about and was edited, it passes its check: each of its gates has the qubits and
the angle of its kind, on different qubits of the register, which is that of the start. A gate that is
refused leaves the circuit as it is, and a list of gates is appended up to the first that is refused. -/
theorem edited_circuits_are_valid {start : Circuit α} (h : Made start) (edits : List (Edit α)) :
    let c := start.edited edits
    c.validate = .ok () ∧ c.numQubits = start.numQubits ∧ (∀ g ∈ c.gates, g.Fits start.numQubits) ∧
      (∀ g e d, InPlace.add g c = .error e d → d = c) ∧
      (∀ g, c.Appends [g] (InPlace.add g c)) ∧
      ∀ gs, c.Appends gs (InPlace.addAll gs c) := by
  intro c
  obtain ⟨hvalid, hsize⟩ := validate_edited edits h.validate
  refine ⟨hvalid, hsize, hsize ▸ validate_eq_ok.mp hvalid, fun g e d hfailed => ?_, fun g => ?_,
    fun gs => appends_addAll gs c⟩
  · rw [add_apply] at hfailed
    split at hfailed
    · cases hfailed
    · cases hfailed
      rfl
  · rw [← addAll_singleton]
    exact appends_addAll [g] c

/-- Of three gates the second acts on no qubit of the register; then a rotation has no finite angle. -/
theorem edited_circuits_are_valid_on_two_qubits :
    let edits : List (Edit Float) := [.addAll [.h 0, .cnot 0 5, .x 1], .add (.rx 0 (1.0 / 0.0)),
      .setName "pair"]
    let pair : Circuit Float := ⟨2, [.h 0], some "pair"⟩
    Made (.new 2 : Circuit Float) ∧ (new 2 : Circuit Float).edited edits = pair ∧
      pair.validate = .ok () ∧
      pair.Appends [.x 1, .swap 1 1, .z 0] (InPlace.addAll [.x 1, .swap 1 1, .z 0] pair) := by
  intro edits pair
  have hedited : (new 2 : Circuit Float).edited edits = pair := by
    decide
  obtain ⟨hvalid, -, -, -, -, happends⟩ := edited_circuits_are_valid (.new 2) edits
  rw [hedited] at hvalid happends
  exact ⟨.new 2, hedited, hvalid, happends _⟩

end QubitPulse.Circuit
