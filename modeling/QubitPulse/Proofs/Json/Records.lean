import Mathlib.Data.List.Nodup
import QubitPulse.Json.Record
import QubitPulse.Proofs.Decimal.Document
import QubitPulse.Proofs.Json.RoundTrip

/-!
# Records are read back

The parts that documents of the library are made of: they are well-formed, and each is decoded to what
it was encoded from. A double that is not finite has no numeral and is written as `null`.
-/
namespace QubitPulse.Json.Value

/-! ## Well-formed parts -/

theorem wellFormed_nat (n : ℕ) : (nat n).WellFormed := Numeral.wellFormed_ofNat n

theorem wellFormed_scalar (x : Float) : (scalar x).WellFormed := by
  unfold scalar
  cases h : ScalarText.numeral? x with
  | none => trivial
  | some n => exact Double.numeral?_wellFormed h

theorem wellFormed_list {β : Type} {encode : β → Value} {xs : List β}
    (h : ∀ x ∈ xs, (encode x).WellFormed) : (list encode xs).WellFormed := by
  have items : ItemsWellFormed (xs.map encode) := by
    induction xs with
    | nil => trivial
    | cons x xs ih => exact ⟨h x (by simp), ih fun y hy => h y (by simp [hy])⟩
  exact items

theorem wellFormed_record {members : List (String × Value)}
    (h : ∀ m ∈ members, m.2.WellFormed) : (record members).WellFormed := by
  have all : MembersWellFormed (members.map fun m => (some m.1, m.2)) := by
    induction members with
    | nil => trivial
    | cons m ms ih => exact ⟨rfl, h m (by simp), ih fun n hn => h n (by simp [hn])⟩
  exact all

theorem wellFormed_orNull {β : Type} {encode : β → Value} {v : Option β}
    (h : ∀ x ∈ v, (encode x).WellFormed) : (orNull encode v).WellFormed := by
  cases v with
  | none => trivial
  | some x => exact h x rfl

/-! ## Decoding -/

/-- A name that occurs once selects its own member. -/
theorem filter_named {members : List (String × Value)} (h : (members.map Prod.fst).Nodup)
    {m : String × Value} (hm : m ∈ members) :
    (members.map fun m => ((some m.1, m.2) : Text × Value)).filter (fun x => x.1 = some m.1) =
      [(some m.1, m.2)] := by
  induction members with
  | nil => cases hm
  | cons n ns ih =>
    obtain ⟨hn, hrest⟩ := List.nodup_cons.mp h
    rcases List.mem_cons.mp hm with rfl | hm
    · have hnone : (ns.map fun m => ((some m.1, m.2) : Text × Value)).filter
          (fun x => x.1 = some m.1) = [] := by
        rw [List.filter_eq_nil_iff]
        intro x hx heq
        obtain ⟨y, hy, rfl⟩ := List.mem_map.mp hx
        have hname : y.1 = m.1 := by simpa using heq
        exact hn (hname ▸ List.mem_map_of_mem hy)
      rw [List.map_cons, List.filter_cons_of_pos (by simp), hnone]
    · have hne : n.1 ≠ m.1 := fun heq => hn (heq ▸ List.mem_map_of_mem hm)
      rw [List.map_cons, List.filter_cons_of_neg (by simpa using hne)]
      exact ih hrest hm

/-- A record is taken apart into its members if no two have one name. -/
theorem fields?_record (members : List (String × Value)) (h : (members.map Prod.fst).Nodup)
    (allDefault : Bool) :
    (record members).fields? (members.map Prod.fst) allDefault =
      some (members.map fun m => some m.2) := by
  have hnamed : (members.map fun m => ((some m.1, m.2) : Text × Value)).any
      (fun m => m.1.isNone) = false := by
    simp
  have honce : (members.map Prod.fst).any
      (repeats (members.map fun m => (some m.1, m.2))) = false := by
    rw [List.any_eq_false]
    intro name hname
    obtain ⟨m, hm, rfl⟩ := List.mem_map.mp hname
    simp [repeats, filter_named h hm]
  have hmember : (members.map Prod.fst).map (member? (members.map fun m => (some m.1, m.2))) =
      members.map fun m => some m.2 := by
    rw [List.map_map]
    apply List.map_congr_left
    intro m hm
    simp only [Function.comp_apply, member?, ← List.head?_filter, filter_named h hm]
    rfl
  unfold fields? record
  simp only [hnamed, honce, hmember, Bool.or_self, Bool.false_eq_true, if_false]

/-- A number whose numeral is read as the number itself. -/
def ReadsBack (x : Float) : Prop := (ScalarText.numeral? x).bind ScalarText.ofNumeral? = some x

instance (x : Float) : Decidable (ReadsBack x) := inferInstanceAs (Decidable (_ = _))

theorem scalar?_scalar {x : Float} (h : ReadsBack x) : scalar? (scalar x) = some x := by
  unfold ReadsBack at h
  unfold scalar
  cases hn : ScalarText.numeral? x with
  | none =>
    rw [hn] at h
    cases h
  | some n =>
    rw [hn] at h
    exact h

theorem scalar_eq_null {x : Float} (h : Scalar.isFinite x = false) : scalar x = .null := by
  rw [scalar, Double.numeral?_eq_none.mpr h]

theorem list?_list {β : Type} {encode : β → Value} {decode : Value → Option β} (xs : List β)
    (h : ∀ x ∈ xs, decode (encode x) = some x) : (list encode xs).list? decode = some xs := by
  simp only [list, list?, List.mapM_map]
  induction xs with
  | nil => rfl
  | cons x xs ih => simp_all

/-- Numbers that can be decoded at all are finite. -/
theorem finite_of_list?_list {xs ys : List Float}
    (h : (list scalar xs).list? scalar? = some ys) : ∀ x ∈ xs, Scalar.isFinite x = true := by
  simp only [list, list?, List.mapM_map] at h
  induction xs generalizing ys with
  | nil => simp
  | cons x xs ih =>
    rw [List.mapM_cons] at h
    obtain ⟨y, hy, h⟩ := Option.bind_eq_some_iff.mp h
    obtain ⟨zs, hzs, _⟩ := Option.bind_eq_some_iff.mp h
    intro z hz
    rcases List.mem_cons.mp hz with rfl | hz
    · by_contra hfin
      rw [Bool.not_eq_true] at hfin
      simp [scalar_eq_null hfin, scalar?] at hy
    · exact ih hzs z hz

theorem nullOr_eq_map {β : Type} {decode : Value → Option β} {v : Value} (h : v ≠ .null) :
    nullOr decode v = (decode v).map some := by
  cases v with
  | null => exact absurd rfl h
  | _ => rfl

/-- A field that may be absent is read back if its value is, and if `null` encodes no value. -/
theorem optional_orNull {β : Type} {encode : β → Value} {decode : Value → Option β} {v : Option β}
    (hnull : decode .null = none) (h : ∀ x ∈ v, decode (encode x) = some x) :
    optional decode (some (orNull encode v)) = some v := by
  cases v with
  | none => rfl
  | some x =>
    have hx := h x rfl
    have hne : encode x ≠ .null := by
      intro heq
      rw [heq, hnull] at hx
      cases hx
    change nullOr decode (encode x) = _
    rw [nullOr_eq_map hne, hx]
    rfl

theorem nat?_nat {n : ℕ} (h : n < wordBound) : (nat n).nat? = some n := by
  simp [nat, nat?, Numeral.toNat?_ofNat, h]

theorem lt_wordBound_of_nat? {v : Value} {n : ℕ} (h : v.nat? = some n) : n < wordBound := by
  cases v with
  | number x =>
    obtain ⟨-, hn⟩ := Option.filter_eq_some_iff.mp h
    exact of_decide_eq_true hn
  | _ => cases h

end QubitPulse.Json.Value
