import QubitPulse.Update

/-!
# Steps of an update

An update in place against the operation that returns the value after it. An update follows the operation
if it leaves what the operation returns, and if it fails as the operation does and leaves the value as it
was.
-/
namespace QubitPulse

namespace Update

variable {σ α β γ : Type}

/-- A step that fails ends the update, with what was written before it. -/
theorem bind_apply (u : Update σ α β) (next : β → Update σ α γ) (s : σ) :
    (u >>= next) s =
      match u s with
      | .ok x t => next x t
      | .error e t => .error e t := by
  change EStateM.bind u next s = _
  unfold EStateM.bind
  cases u s <;> rfl

theorem after_bind_pure (u : Update σ α β) (x : γ) (s : σ) :
    (u >>= fun _ => (pure x : Update σ α γ)).after s = u.after s := by
  unfold after
  rw [bind_apply]
  cases u s <;> rfl

theorem map_apply (f : β → γ) (u : Update σ α β) (s : σ) :
    (f <$> u) s =
      match u s with
      | .ok x t => .ok (f x) t
      | .error e t => .error e t := by
  change EStateM.map f u s = _
  unfold EStateM.map
  cases u s <;> rfl

theorem get_bind (next : σ → Update σ α β) (s : σ) : (get >>= next) s = next s s := rfl

theorem attempt_bind (r : Result α β) (next : β → Update σ α γ) (s : σ) :
    (attempt r >>= next) s =
      match r with
      | .ok x => next x s
      | .error e => .error e s := by
  cases r <;> rfl

/-- The update leaves the value that an operation returns, and where the operation fails, it fails with
the same error and leaves the value as it was. -/
def Follows (u : Update σ α β) (s : σ) (operation : Result α σ) : Prop :=
  match operation with
  | .ok t => ∃ x, u s = .ok x t
  | .error e => u s = .error e s

variable {u : Update σ α β} {s : σ} {operation : Result α σ}

theorem Follows.keeps (h : u.Follows s operation) {e : Error α} {t : σ} (hu : u s = .error e t) :
    t = s := by
  cases operation with
  | ok t' =>
    obtain ⟨x, hx⟩ := h
    cases hx.symm.trans hu
  | error e' =>
    cases (show u s = .error e' s from h).symm.trans hu
    rfl

theorem Follows.after_eq : u.Follows s operation → u.after s =
    match operation with
    | .ok t => t
    | .error _ => s := by
  intro h
  unfold after
  cases operation with
  | ok t =>
    obtain ⟨x, hx⟩ := h
    simp only [hx]
  | error e => simp only [show u s = .error e s from h]

theorem Follows.result_eq {u : Update σ α Unit} : u.Follows s operation →
    u.result s = operation.map fun _ => () := by
  intro h
  unfold result
  cases operation with
  | ok t =>
    obtain ⟨x, hx⟩ := h
    rw [hx]
    rfl
  | error e =>
    rw [show u s = .error e s from h]
    rfl

end Update

end QubitPulse
