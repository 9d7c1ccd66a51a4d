import QubitPulse.Proofs.Json.Records
import QubitPulse.Proofs.Result
import QubitPulse.Proofs.Timeline.Segments
import QubitPulse.Timeline.Basic

/-!
# Timelines in documents

The breakpoints and the coefficients of a timeline are stored with the lengths of their axes. A timeline
of finite numbers is read back from its document, in whatever shape; one with a breakpoint that is not
finite is refused, because a document has no numeral for it. What is read of any document is valid.
-/
namespace QubitPulse
open Json.Value (ReadsBack)

namespace Word

/-- An axis is not longer than what can be addressed, even where another axis is empty. -/
theorem le_of_addressable {axes : List ℕ} (h : addressable axes = true) {n : ℕ} (hn : n ∈ axes) :
    n ≤ mostBytes := by
  by_cases hzero : n = 0
  · exact hzero ▸ Nat.zero_le _
  have hmem : n ∈ axes.filter (· ≠ 0) := List.mem_filter.mpr ⟨hn, by simpa using hzero⟩
  have hpos : 0 < (axes.filter (· ≠ 0)).prod := List.prod_pos fun m hm => by
    have hne := (List.mem_filter.mp hm).2
    exact Nat.pos_of_ne_zero (by simpa using hne)
  rw [addressable, decide_eq_true_iff, ← List.prod_eq_foldl] at h
  exact (Nat.le_of_dvd hpos (List.dvd_prod hmem)).trans h

theorem prod_le_of_addressable {axes : List ℕ} (h : addressable axes = true) :
    axes.foldl (· * ·) 1 ≤ mostBytes := by
  rw [← List.prod_eq_foldl]
  by_cases hzero : 0 ∈ axes
  · rw [List.prod_eq_zero hzero]
    exact Nat.zero_le _
  · have hall : axes.filter (· ≠ 0) = axes := List.filter_eq_self.mpr fun n hn => by
      simpa using ne_of_mem_of_not_mem hn hzero
    rwa [addressable, hall, decide_eq_true_iff, ← List.prod_eq_foldl] at h

end Word

namespace Json.Stored

variable {β : Type}

theorem wellFormed_ofParts {encode : β → Value} (axes : List ℕ) {entries : List β}
    (h : ∀ x ∈ entries, (encode x).WellFormed) : (ofParts encode axes entries).WellFormed := by
  apply Value.wellFormed_record
  intro m hm
  simp only [List.mem_cons, List.not_mem_nil, or_false] at hm
  rcases hm with rfl | rfl | rfl
  · exact Value.wellFormed_nat _
  · exact Value.wellFormed_list fun n _ => Value.wellFormed_nat n
  · exact Value.wellFormed_list h

/-- A name that occurs once is decoded as its own member. -/
theorem last?_named {γ : Type} (decode : Value → Option γ) {members : List (String × Value)}
    (h : (members.map Prod.fst).Nodup) (m : String × Value) (hm : m ∈ members) :
    last? decode (members.map fun m => (some m.1, m.2)) m.1 = decode m.2 := by
  unfold last?
  rw [Value.filter_named h hm]
  cases hd : decode m.2 <;> simp [hd]

/-- A stored array is decoded to its axes and its entries, if these are decoded and the axes account
for them. -/
theorem parts?_ofParts (encode : β → Value) (decode : Value → Option β) {axes : List ℕ}
    (entries : List β) (haxes : ∀ n ∈ axes, n < Value.wordBound) :
    parts? axes.length decode (ofParts encode axes entries) =
      ((Value.list encode entries).list? decode).bind fun data =>
        if fits axes data.length then some (axes, data) else none := by
  have hnodup : ([("v", Value.nat version), ("dim", .list .nat axes),
      ("data", .list encode entries)].map Prod.fst).Nodup := by
    simp
  have hv : version? (Value.nat version) = some version := by
    rw [version?, Value.nat?_nat (by decide)]
    rfl
  have hdim : axes? axes.length (.list .nat axes) = some axes := by
    rw [axes?, Value.list?_list axes fun n hn => Value.nat?_nat (haxes n hn)]
    simp
  have hmv := last?_named version? hnodup ("v", .nat version) (by simp)
  have hmdim := last?_named (axes? axes.length) hnodup ("dim", .list .nat axes) (by simp)
  have hmdata := last?_named (Value.list? decode) hnodup ("data", .list encode entries) (by simp)
  simp only [hv, hdim] at hmv hmdim hmdata
  unfold parts? ofParts Value.record
  simp only [hmv, hmdim, hmdata]
  cases (Value.list encode entries).list? decode <;> simp

theorem lt_wordBound {n : ℕ} (h : n ≤ Word.mostBytes) : n < Value.wordBound :=
  lt_of_le_of_lt h (by decide)

/-- A list that memory can hold is read back if its members are. -/
theorem list?_ofList {encode : β → Value} {decode : Value → Option β} {xs : List β}
    (hsize : xs.length ≤ Word.mostBytes) (h : ∀ x ∈ xs, decode (encode x) = some x) :
    list? decode (ofList encode xs) = some xs := by
  have hfits : fits [xs.length] xs.length = true := by
    by_cases hzero : xs.length = 0
    · rw [hzero]
      decide
    · simp [fits, Word.addressable, hzero, hsize]
  have haxes : ∀ n ∈ [xs.length], n < Value.wordBound := by
    simpa using lt_wordBound hsize
  have hparts := parts?_ofParts encode decode xs haxes
  rw [Value.list?_list xs h] at hparts
  unfold list? ofList
  change (parts? [xs.length].length decode _).map _ = _
  rw [hparts]
  simp [hfits]

/-- A grid that memory can hold is read back if its entries are. -/
theorem grid?_ofGrid {encode : β → Value} {decode : Value → Option β} {g : Grid β}
    (hsize : Word.addressable [g.rows, g.cols] = true) (hrows : g.rows ≤ Word.mostBytes)
    (hcols : g.cols ≤ Word.mostBytes) (h : ∀ x ∈ g.entries, decode (encode x) = some x) :
    grid? decode (ofGrid encode g) = some g := by
  have hfits : fits [g.rows, g.cols] g.entries.toList.length = true := by
    simp [fits, hsize, g.size_eq]
  have haxes : ∀ n ∈ [g.rows, g.cols], n < Value.wordBound := by
    simpa using ⟨lt_wordBound hrows, lt_wordBound hcols⟩
  have hparts := parts?_ofParts encode decode g.entries.toList haxes
  rw [Value.list?_list g.entries.toList fun x hx => h x (Array.mem_toList_iff.mp hx)] at hparts
  rw [Option.bind_some, if_pos hfits] at hparts
  unfold grid? ofGrid
  rw [show 2 = [g.rows, g.cols].length from rfl, hparts]
  have hsize' : g.entries.toList.length = g.rows * g.cols := by simpa using g.size_eq
  simp only [Grid.ofList?, dif_pos hsize', Array.toArray_toList]

/-! ## What is decoded -/

/-- The axes of an array that is decoded account for its entries and can be addressed. -/
theorem fits_of_parts? {decode : Value → Option β} {v : Value} {count : ℕ} {axes : List ℕ}
    {entries : List β} (h : parts? count decode v = some (axes, entries)) :
    Word.addressable axes = true ∧ axes.foldl (· * ·) 1 = entries.length := by
  -- both forms, by names and by place, end in the same check
  have hchecked : ∀ {dim : List ℕ} {data : List β},
      (if fits dim data.length then some (dim, data) else none) = some (axes, entries) →
        fits axes entries.length = true := by
    intro dim data hparts
    split_ifs at hparts with hfits
    obtain ⟨rfl, rfl⟩ := Prod.mk.inj (Option.some.inj hparts)
    exact hfits
  have hfits : fits axes entries.length = true := by
    unfold parts? at h
    dsimp only at h
    split at h
    · next members =>
      split at h
      · obtain ⟨_, -, h⟩ := Option.bind_eq_some_iff.mp h
        obtain ⟨dim, -, h⟩ := Option.bind_eq_some_iff.mp h
        obtain ⟨data, -, h⟩ := Option.bind_eq_some_iff.mp h
        exact hchecked h
      · cases h
    · next v dim data =>
      obtain ⟨_, -, h⟩ := Option.bind_eq_some_iff.mp h
      obtain ⟨dim, -, h⟩ := Option.bind_eq_some_iff.mp h
      obtain ⟨data, -, h⟩ := Option.bind_eq_some_iff.mp h
      exact hchecked h
    · cases h
  simpa [fits] using hfits

theorem length_le_of_list? {decode : Value → Option β} {v : Value} {xs : List β}
    (h : list? decode v = some xs) : xs.length ≤ Word.mostBytes := by
  obtain ⟨⟨axes, entries⟩, hparts, rfl⟩ := Option.map_eq_some_iff.mp h
  obtain ⟨haddressable, hlength⟩ := fits_of_parts? hparts
  exact hlength ▸ Word.prod_le_of_addressable haddressable

theorem addressable_of_grid? {decode : Value → Option β} {v : Value} {g : Grid β}
    (h : grid? decode v = some g) : Word.addressable [g.rows, g.cols] = true := by
  unfold grid? at h
  split at h
  · next m n entries hparts =>
    unfold Grid.ofList? at h
    split_ifs at h
    obtain rfl := Option.some.inj h
    exact (fits_of_parts? hparts).1
  · cases h

end Json.Stored

namespace Timeline

/-- The parts of a timeline that have to find room in memory. -/
structure Addressable (t : Timeline Float) : Prop where
  breakpoints : t.breakpoints.length ≤ Word.mostBytes
  rows : t.coeffs.rows ≤ Word.mostBytes
  cols : t.coeffs.cols ≤ Word.mostBytes
  coeffs : Word.addressable [t.coeffs.rows, t.coeffs.cols] = true

theorem addressable_of_axes {t : Timeline Float} (hbreakpoints : t.breakpoints.length ≤ Word.mostBytes)
    (hcoeffs : Word.addressable [t.coeffs.rows, t.coeffs.cols] = true) : t.Addressable where
  breakpoints := hbreakpoints
  rows := Word.le_of_addressable hcoeffs (by simp)
  cols := Word.le_of_addressable hcoeffs (by simp)
  coeffs := hcoeffs

theorem wellFormed_toJson (t : Timeline Float) : t.toJson.WellFormed := by
  apply Json.Value.wellFormed_record
  intro m hm
  simp only [List.mem_cons, List.not_mem_nil, or_false] at hm
  rcases hm with rfl | rfl | rfl
  · exact Json.Stored.wellFormed_ofParts _ fun x _ => Json.Value.wellFormed_scalar x
  · exact Json.Stored.wellFormed_ofParts _ fun x _ => Json.Value.wellFormed_scalar x
  · trivial

theorem ofJson?_interpolation (i : Interpolation) : Interpolation.ofJson? i.toJson = some i := by
  cases i <;> rfl

/-- A timeline whose numbers are read back is read back itself. -/
theorem ofJson?_toJson {t : Timeline Float} (hsize : t.Addressable)
    (hbreakpoints : ∀ x ∈ t.breakpoints, ReadsBack x) (hcoeffs : ∀ x ∈ t.coeffs.entries, ReadsBack x) :
    ofJson? t.toJson = some t := by
  have hfields := Json.Value.fields?_record
    [("tlist", Json.Stored.ofList Json.Value.scalar t.breakpoints),
      ("coeffs", Json.Stored.ofGrid Json.Value.scalar t.coeffs),
      ("spline_kind", t.interpolation.toJson)] (by simp) false
  have hlist := Json.Stored.list?_ofList hsize.breakpoints fun x hx =>
    Json.Value.scalar?_scalar (hbreakpoints x hx)
  have hgrid := Json.Stored.grid?_ofGrid hsize.coeffs hsize.rows hsize.cols fun x hx =>
    Json.Value.scalar?_scalar (hcoeffs x hx)
  simp only [List.map_cons, List.map_nil] at hfields
  simp only [ofJson?, toJson, hfields, Option.bind_eq_bind, Option.bind_some,
    Json.Value.required, hlist, hgrid, ofJson?_interpolation]
  rfl

/-- A timeline with a breakpoint that is not finite has no document that can be read. -/
theorem ofJson?_toJson_eq_none {t : Timeline Float} (hsize : t.Addressable)
    (h : ∃ x ∈ t.breakpoints, Scalar.isFinite x = false) :
    (ofJson? t.toJson : Option (Timeline Float)) = none := by
  obtain ⟨x, hx, hfin⟩ := h
  have hdecode : (Json.Value.list Json.Value.scalar t.breakpoints).list?
      (Json.Value.scalar? (α := Float)) = none := by
    rw [Option.eq_none_iff_forall_ne_some]
    intro ys hys
    have hall := Json.Value.finite_of_list?_list hys x hx
    rw [hfin] at hall
    cases hall
  have hlist : Json.Stored.list? (Json.Value.scalar? (α := Float))
      (Json.Stored.ofList Json.Value.scalar t.breakpoints) = none := by
    have haxes : ∀ n ∈ [t.breakpoints.length], n < Json.Value.wordBound := by
      simpa using Json.Stored.lt_wordBound hsize.breakpoints
    have hparts := Json.Stored.parts?_ofParts Json.Value.scalar (Json.Value.scalar? (α := Float))
      t.breakpoints haxes
    rw [hdecode] at hparts
    change (Json.Stored.parts? [t.breakpoints.length].length _ _).map _ = _
    unfold Json.Stored.ofList
    rw [hparts]
    rfl
  have hfields := Json.Value.fields?_record
    [("tlist", Json.Stored.ofList Json.Value.scalar t.breakpoints),
      ("coeffs", Json.Stored.ofGrid Json.Value.scalar t.coeffs),
      ("spline_kind", t.interpolation.toJson)] (by simp) false
  simp only [List.map_cons, List.map_nil] at hfields
  simp only [ofJson?, toJson, hfields, Option.bind_eq_bind, Option.bind_some,
    Json.Value.required, hlist, Option.bind_none]

/-- The document of a timeline that is valid gives the timeline again. Of its numbers it is supposed
that they are read from their numerals as they were. -/
theorem ofDocument_toDocument {t : Timeline Float} (hvalid : t.validate = .ok ())
    (hsize : t.Addressable) (hbreakpoints : ∀ x ∈ t.breakpoints, ReadsBack x)
    (hcoeffs : ∀ x ∈ t.coeffs.entries, ReadsBack x) : ofDocument t.toDocument = .ok t := by
  unfold ofDocument ofRawDocument toDocument
  rw [Json.Value.parse?_compact t.wellFormed_toJson, Option.bind_some,
    ofJson?_toJson hsize hbreakpoints hcoeffs]
  exact Result.map_eq_ok.mpr ⟨(), hvalid, rfl⟩

/-- The numbers of a valid timeline are finite, so that only finite ones have to be read back. -/
theorem ofDocument_toDocument_of_finite {t : Timeline Float} (hvalid : t.validate = .ok ())
    (hsize : t.Addressable)
    (hread : ∀ x ∈ t.breakpoints ++ t.coeffs.entries.toList, Scalar.isFinite x = true → ReadsBack x) :
    ofDocument t.toDocument = .ok t := by
  obtain ⟨hbreakpoints, hcoeffs⟩ := finite_of_validate hvalid
  exact ofDocument_toDocument hvalid hsize
    (fun x hx => hread x (List.mem_append_left _ hx) (hbreakpoints x hx))
    fun x hx => hread x (List.mem_append_right _ (Array.mem_toList_iff.mpr hx)) (hcoeffs x hx)

/-- The document of a timeline with a breakpoint that is not finite is refused. -/
theorem ofDocument_toDocument_eq_error {t : Timeline Float} (hsize : t.Addressable)
    (h : ∃ x ∈ t.breakpoints, Scalar.isFinite x = false) :
    (ofDocument t.toDocument : Result Float (Timeline Float)) = .error (.jsonError "timeline") := by
  unfold ofDocument ofRawDocument toDocument
  rw [Json.Value.parse?_compact t.wellFormed_toJson, Option.bind_some,
    ofJson?_toJson_eq_none hsize h]
  rfl

/-! ## What is read -/

/-- A timeline that is decoded finds room in memory. -/
theorem addressable_of_ofJson? {v : Json.Value} {t : Timeline Float} (h : ofJson? v = some t) :
    t.Addressable := by
  unfold ofJson? at h
  obtain ⟨_, -, h⟩ := Option.bind_eq_some_iff.mp h
  split at h
  · obtain ⟨breakpoints, hbreakpoints, h⟩ := Option.bind_eq_some_iff.mp h
    obtain ⟨coeffs, hcoeffs, h⟩ := Option.bind_eq_some_iff.mp h
    obtain ⟨interpolation, -, h⟩ := Option.bind_eq_some_iff.mp h
    obtain rfl := Option.some.inj h
    obtain ⟨_, -, hlist⟩ := Option.bind_eq_some_iff.mp hbreakpoints
    obtain ⟨_, -, hgrid⟩ := Option.bind_eq_some_iff.mp hcoeffs
    exact addressable_of_axes (Json.Stored.length_le_of_list? hlist)
      (Json.Stored.addressable_of_grid? hgrid)
  · cases h

/-- A document gives a timeline if it holds one that can be driven. -/
theorem ofDocument_eq_ok {document : String} {t : Timeline Float} :
    ofDocument document = .ok t ↔
      (Json.Value.parse? document).bind ofJson? = some t ∧ t.validate = .ok () := by
  unfold ofDocument ofRawDocument
  cases (Json.Value.parse? document).bind (ofJson? (α := Float)) with
  | none => exact ⟨nofun, fun h => nomatch h.1⟩
  | some s =>
    rw [Result.ok_bind, Result.checked_eq_ok fun s : Timeline Float => s.validate, Option.some_inj]

/-- Every valid timeline that memory can hold is read back from its document, in steps or a spline, and
whatever rows and columns it has. What is read of any text is valid and finds room in memory, so that it is
read back from its own document. Of its numbers it is supposed that a finite one is read from its numeral as
it was. -/
theorem timelines_are_read_back :
    (∀ t : Timeline Float, t.validate = .ok () → t.Addressable →
      (∀ x ∈ t.breakpoints ++ t.coeffs.entries.toList, Scalar.isFinite x = true → ReadsBack x) →
        ofDocument t.toDocument = .ok t) ∧
    ∀ (document : String) (t : Timeline Float), ofDocument document = .ok t →
      t.validate = .ok () ∧ t.Addressable ∧
        ((∀ x ∈ t.breakpoints ++ t.coeffs.entries.toList, Scalar.isFinite x = true → ReadsBack x) →
          ofDocument t.toDocument = .ok t) := by
  refine ⟨fun t => ofDocument_toDocument_of_finite, fun document t h => ?_⟩
  obtain ⟨hdecoded, hvalid⟩ := ofDocument_eq_ok.mp h
  obtain ⟨v, -, hdecoded⟩ := Option.bind_eq_some_iff.mp hdecoded
  have hsize := addressable_of_ofJson? hdecoded
  exact ⟨hvalid, hsize, ofDocument_toDocument_of_finite hvalid hsize⟩

/-- No controls at all, one breakpoint without a column, a trailing column of steps, and a spline of one
sample; then a document whose arrays are given by place, and are empty but for the breakpoint. -/
theorem timelines_are_read_back_in_degenerate_shapes :
    let ts : List (Timeline Float) := [
      ⟨[0.0, 0.5], ⟨0, 1, #[], rfl⟩, .step⟩,
      ⟨[-1.5], ⟨2, 0, #[], rfl⟩, .step⟩,
      ⟨[0.0, 0.1, 0.1], ⟨2, 3, #[1.0, -0.0, 0.3, 4.0, 5e-324, -6.5], rfl⟩, .step⟩,
      ⟨[2.0], ⟨1, 1, #[1e22], rfl⟩, .cubic⟩]
    let document := "[[1, [1], [0]], [1, [3, 0], []], \"step_func\"]"
    let d : Timeline Float := ⟨[0.0], ⟨3, 0, #[], rfl⟩, .step⟩
    (∀ t ∈ ts, t.validate = .ok () ∧ t.Addressable ∧
      (∀ x ∈ t.breakpoints ++ t.coeffs.entries.toList, Scalar.isFinite x = true → ReadsBack x) ∧
      ofDocument t.toDocument = .ok t) ∧
    ofDocument document = .ok d ∧ d.validate = .ok () ∧ ofDocument d.toDocument = .ok d := by
  intro ts document d
  obtain ⟨hback, hread⟩ := timelines_are_read_back
  obtain ⟨hfacts, hdocument, hd⟩ :
      (∀ t ∈ ts, t.validate = .ok () ∧
        ∀ x ∈ t.breakpoints ++ t.coeffs.entries.toList, Scalar.isFinite x = true → ReadsBack x) ∧
      ofDocument document = .ok d ∧
      ∀ x ∈ d.breakpoints ++ d.coeffs.entries.toList, Scalar.isFinite x = true → ReadsBack x := by
    decide +kernel
  have hsizes : ∀ t ∈ ts, t.Addressable := by
    intro t ht
    simp only [ts, List.mem_cons, List.not_mem_nil, or_false] at ht
    rcases ht with rfl | rfl | rfl | rfl <;> exact addressable_of_axes (by decide) (by decide)
  obtain ⟨hvalid, -, hagain⟩ := hread document d hdocument
  refine ⟨fun t ht => ?_, hdocument, hvalid, hagain hd⟩
  obtain ⟨hvalid, hnumbers⟩ := hfacts t ht
  exact ⟨hvalid, hsizes t ht, hnumbers, hback t hvalid (hsizes t ht) hnumbers⟩

end Timeline
end QubitPulse
