import Mathlib.Data.List.Forall2
import QubitPulse.Error

/-!
# Successful steps

The operations of the library are sequences of fallible steps. These lemmas take a successful
sequence apart into its steps, so that later proofs never open the bind of a result.
-/
namespace QubitPulse.Result

variable {α β γ : Type}

/-- A sequence succeeds exactly if its first step does and the rest succeeds from there. -/
theorem bind_eq_ok {x : Result α β} {f : β → Result α γ} {c : γ} :
    (x >>= f) = .ok c ↔ ∃ b, x = .ok b ∧ f b = .ok c := by
  constructor
  · intro h
    cases x with
    | error e => cases h
    | ok b => exact ⟨b, rfl, h⟩
  · rintro ⟨b, rfl, h⟩
    exact h

theorem ok_bind (b : β) (f : β → Result α γ) : (Except.ok b >>= f) = f b := rfl

theorem map_bind {δ : Type} (x : Result α β) (f : β → Result α γ) (g : γ → δ) :
    (x >>= f).map g = x >>= fun b => (f b).map g := by
  cases x <;> rfl

theorem map_eq_ok {x : Result α β} {f : β → γ} {c : γ} :
    x.map f = .ok c ↔ ∃ b, x = .ok b ∧ f b = c := by
  constructor
  · intro h
    cases x with
    | error e => cases h
    | ok b => exact ⟨b, rfl, Except.ok.inj h⟩
  · rintro ⟨b, rfl, rfl⟩
    rfl

/-- A value that is checked is given back exactly if it passes the check. -/
theorem checked_eq_ok (check : β → Result α Unit) {b c : β} :
    (check b).map (fun _ => b) = .ok c ↔ b = c ∧ check c = .ok () := by
  rw [map_eq_ok]
  constructor
  · rintro ⟨_, hcheck, rfl⟩
    exact ⟨rfl, hcheck⟩
  · rintro ⟨rfl, hcheck⟩
    exact ⟨(), hcheck, rfl⟩

/-- A step that is taken for every member of a list succeeds exactly if each of them does. -/
theorem mapM_eq_ok {f : β → Result α γ} {xs : List β} {ys : List γ} :
    xs.mapM f = .ok ys ↔ List.Forall₂ (fun x y => f x = .ok y) xs ys := by
  induction xs generalizing ys with
  | nil =>
    rw [List.mapM_nil, List.forall₂_nil_left_iff]
    exact ⟨fun h => (Except.ok.inj h).symm, fun h => h ▸ rfl⟩
  | cons x xs ih =>
    rw [List.mapM_cons, bind_eq_ok]
    constructor
    · rintro ⟨y, hy, h⟩
      obtain ⟨ys', hys, h⟩ := bind_eq_ok.mp h
      obtain rfl := Except.ok.inj h
      exact .cons hy (ih.mp hys)
    · intro h
      cases h with
      | cons hy hrest => exact ⟨_, hy, bind_eq_ok.mpr ⟨_, ih.mpr hrest, rfl⟩⟩

/-- A check of every member of a list succeeds exactly if each of them does. -/
theorem forM_eq_ok {f : β → Result α Unit} {xs : List β} :
    xs.forM f = .ok () ↔ ∀ x ∈ xs, f x = .ok () := by
  induction xs with
  | nil => simp [pure, Except.pure]
  | cons x xs ih =>
    change (f x >>= fun _ => xs.forM f) = .ok () ↔ _
    rw [bind_eq_ok, List.forall_mem_cons, ← ih]
    exact ⟨fun ⟨_, hx, hxs⟩ => ⟨hx, hxs⟩, fun ⟨hx, hxs⟩ => ⟨(), hx, hxs⟩⟩

/-- A fold of fallible steps that never fail where an invariant holds is the fold of their results. -/
theorem foldlM_eq_foldl {f : γ → β → Result α γ} {g : γ → β → γ} (P : γ → Prop)
    {xs : List β} (h : ∀ b x, P b → x ∈ xs → f b x = .ok (g b x) ∧ P (g b x)) {b : γ} (hb : P b) :
    xs.foldlM f b = .ok (xs.foldl g b) ∧ P (xs.foldl g b) := by
  induction xs generalizing b with
  | nil => exact ⟨rfl, hb⟩
  | cons x xs ih =>
    obtain ⟨hstep, hnext⟩ := h b x hb (by simp)
    rw [List.foldlM_cons, hstep, List.foldl_cons]
    exact ih (fun b x hb hx => h b x hb (by simp [hx])) hnext

/-! ## Failures -/

/-- The error of a step that failed. -/
def error? : Result α β → Option (Error α)
  | .ok _ => none
  | .error e => some e

theorem error?_eq_none {x : Result α β} : error? x = none ↔ ∃ b, x = .ok b := by
  cases x <;> simp [error?]

theorem error?_eq_some {x : Result α β} {e : Error α} : error? x = some e ↔ x = .error e := by
  cases x <;> simp [error?]

theorem error?_map (x : Result α β) (f : β → γ) : error? (x.map f) = error? x := by
  cases x <;> rfl

/-- A check fails, or what follows it does. -/
theorem error?_check (x : Result α Unit) (f : Unit → Result α β) :
    error? (x >>= f) = (error? x).or (error? (f ())) := by
  cases x <;> rfl

/-- The first of a list of errors is its head, if that is one. -/
theorem findSome?_cons (o : Option β) (os : List (Option β)) :
    (o :: os).findSome? id = o.or (os.findSome? id) := by
  cases o <;> rfl

/-- A check of every member of a list fails as it does for the first member that fails. -/
theorem error?_forM {f : β → Result α Unit} {xs : List β} :
    error? (xs.forM f) = xs.findSome? fun x => error? (f x) := by
  induction xs with
  | nil => rfl
  | cons x xs ih =>
    change error? (f x >>= fun _ => xs.forM f) = _
    rw [List.findSome?_cons, ← ih]
    cases f x <;> rfl

/-- A step that is taken for every member of a list fails as it does for the first member that fails. -/
theorem error?_mapM {f : β → Result α γ} {xs : List β} :
    error? (xs.mapM f) = xs.findSome? fun x => error? (f x) := by
  induction xs with
  | nil => rfl
  | cons x xs ih =>
    rw [List.mapM_cons, List.findSome?_cons, ← ih]
    cases f x with
    | error e => rfl
    | ok y => cases xs.mapM f <;> rfl

/-- If every step succeeds with a result of some kind, so do all of them. -/
theorem exists_mapM {δ : Type*} {f : β → Result α γ} {g : β → δ} {R : γ → δ → Prop} {xs : List β}
    (h : ∀ x ∈ xs, ∃ y, f x = .ok y ∧ R y (g x)) :
    ∃ ys, xs.mapM f = .ok ys ∧ List.Forall₂ R ys (xs.map g) := by
  induction xs with
  | nil => exact ⟨[], rfl, .nil⟩
  | cons x xs ih =>
    obtain ⟨y, hy, hR⟩ := h x (by simp)
    obtain ⟨ys, hys, hrest⟩ := ih fun x hx => h x (by simp [hx])
    exact ⟨y :: ys, mapM_eq_ok.mpr (.cons hy (mapM_eq_ok.mp hys)), .cons hR hrest⟩

/-- If every step succeeds with a result of some property, all of them do. -/
theorem exists_mapM_forall {f : β → Result α γ} {P : γ → Prop} {xs : List β}
    (h : ∀ x ∈ xs, ∃ y, f x = .ok y ∧ P y) : ∃ ys, xs.mapM f = .ok ys ∧ ∀ y ∈ ys, P y := by
  induction xs with
  | nil => exact ⟨[], rfl, nofun⟩
  | cons x xs ih =>
    obtain ⟨y, hy, hP⟩ := h x (by simp)
    obtain ⟨ys, hys, hrest⟩ := ih fun x hx => h x (by simp [hx])
    exact ⟨y :: ys, mapM_eq_ok.mpr (.cons hy (mapM_eq_ok.mp hys)),
      List.forall_mem_cons.mpr ⟨hP, hrest⟩⟩

/-- If a step fails and no step fails otherwise, that is how all of them fail. -/
theorem mapM_eq_error {f : β → Result α γ} {xs : List β} {e : Error α}
    (h : ∀ x ∈ xs, f x = .error e ∨ ∃ y, f x = .ok y) (hfails : ∃ x ∈ xs, f x = .error e) :
    xs.mapM f = .error e := by
  induction xs with
  | nil => simp at hfails
  | cons x xs ih =>
    rw [List.mapM_cons]
    rcases h x (by simp) with hx | ⟨y, hy⟩
    · rw [hx]
      rfl
    · obtain ⟨x', hmem, hx'⟩ := hfails
      have hrest : ∃ x ∈ xs, f x = .error e := by
        rcases List.mem_cons.mp hmem with rfl | hmem
        · rw [hy] at hx'
          cases hx'
        · exact ⟨x', hmem, hx'⟩
      rw [hy, ok_bind, ih (fun x hx => h x (by simp [hx])) hrest]
      rfl

end QubitPulse.Result
