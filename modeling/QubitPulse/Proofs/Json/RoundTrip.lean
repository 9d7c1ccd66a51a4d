import QubitPulse.Json.Reader
import QubitPulse.Proofs.Json.Scanning

/-!
# Documents are read back

A value is written, compactly or indented, as its tokens with blanks between them; the characters are
scanned to these tokens again, and the tokens are read as the value. What a value has to satisfy is
that its numbers are numerals of the grammar and its strings are texts.
-/
namespace QubitPulse.Json
open Token

namespace Value

mutual

/-- Numbers follow the grammar and strings are texts. -/
def WellFormed : Value → Prop
  | .null => True
  | .bool _ => True
  | .number n => n.WellFormed
  | .string s => s.isSome
  | .array items => ItemsWellFormed items
  | .object members => MembersWellFormed members

def ItemsWellFormed : List Value → Prop
  | [] => True
  | v :: vs => v.WellFormed ∧ ItemsWellFormed vs

def MembersWellFormed : List (Text × Value) → Prop
  | [] => True
  | (k, v) :: ms => k.isSome ∧ v.WellFormed ∧ MembersWellFormed ms

end

mutual

/-- Tokens of a value. -/
def tokens : Value → List Token
  | .null => [.null]
  | .bool b => [.bool b]
  | .number n => [.number n]
  | .string s => [.string s]
  | .array [] => [.openBracket, .closeBracket]
  | .array (v :: vs) => .openBracket :: (tokens v ++ itemTokens vs)
  | .object [] => [.openBrace, .closeBrace]
  | .object ((k, v) :: ms) => .openBrace :: .string k :: .colon :: (tokens v ++ memberTokens ms)

/-- Tokens of the items after the first, and the closing bracket. -/
def itemTokens : List Value → List Token
  | [] => [.closeBracket]
  | v :: vs => .comma :: (tokens v ++ itemTokens vs)

/-- Tokens of the members after the first, and the closing brace. -/
def memberTokens : List (Text × Value) → List Token
  | [] => [.closeBrace]
  | (k, v) :: ms => .comma :: .string k :: .colon :: (tokens v ++ memberTokens ms)

end

/-! ## From tokens to values -/

/-- No value starts with a closing token. -/
theorem tokens_eq_cons (v : Value) :
    ∃ t ts, v.tokens = t :: ts ∧ t ≠ .closeBracket ∧ t ≠ .closeBrace := by
  cases v with
  | array items => cases items <;> exact ⟨_, _, by rw [tokens], by simp, by simp⟩
  | object members =>
    cases members with
    | nil => exact ⟨_, _, by rw [tokens], by simp, by simp⟩
    | cons m ms => exact ⟨_, _, by rw [tokens], by simp, by simp⟩
  | _ => exact ⟨_, _, by rw [tokens], by simp, by simp⟩

theorem length_tokens_pos (v : Value) : 0 < v.tokens.length := by
  obtain ⟨t, ts, heq, -⟩ := v.tokens_eq_cons
  rw [heq]
  exact Nat.succ_pos _

/-- An array is not taken for the empty one when its first item is read. -/
theorem readWithin_openBracket {v : Value} {vs : List Value} {fuel : ℕ} {rest : List Token}
    (h : itemsWithin fuel (v.tokens ++ itemTokens vs ++ rest) = some (v :: vs, rest)) :
    readWithin (fuel + 1) (.openBracket :: (v.tokens ++ itemTokens vs ++ rest)) =
      some (.array (v :: vs), rest) := by
  obtain ⟨t, ts, heq, ht, -⟩ := v.tokens_eq_cons
  rw [heq] at h ⊢
  simp only [List.cons_append] at h ⊢
  unfold readWithin
  split <;> simp_all

/-- What is written of a value, of the items of an array and of the members of an object is read
back, if there are twice as many steps as tokens. -/
theorem read_tokens (fuel : ℕ) :
    (∀ v rest, 2 * (tokens v).length ≤ fuel →
      readWithin fuel (v.tokens ++ rest) = some (v, rest)) ∧
    (∀ v vs rest, 2 * ((tokens v).length + (itemTokens vs).length) ≤ fuel →
      itemsWithin fuel (v.tokens ++ itemTokens vs ++ rest) = some (v :: vs, rest)) ∧
    ∀ k v ms rest, 2 * (2 + (tokens v).length + (memberTokens ms).length) ≤ fuel →
      membersWithin fuel (.string k :: .colon :: (v.tokens ++ memberTokens ms ++ rest)) =
        some ((k, v) :: ms, rest) := by
  induction fuel with
  | zero =>
    refine ⟨fun v _ h => ?_, fun v _ _ h => ?_, fun k v ms rest h => ?_⟩ <;>
      have := v.length_tokens_pos <;> omega
  | succ fuel ih =>
    obtain ⟨ihValue, ihItems, ihMembers⟩ := ih
    refine ⟨fun v rest h => ?_, fun v vs rest h => ?_, fun k v ms rest h => ?_⟩
    · match v with
      | .null => rfl
      | .bool b => rfl
      | .number n => rfl
      | .string s => rfl
      | .array [] => rfl
      | .object [] => rfl
      | .array (v :: vs) =>
        simp only [tokens, List.length_cons, List.length_append, List.cons_append] at h ⊢
        exact readWithin_openBracket (ihItems v vs rest (by omega))
      | .object ((k, v) :: ms) =>
        simp only [tokens, List.length_cons, List.length_append, List.cons_append] at h ⊢
        simp only [readWithin, ihMembers k v ms rest (by omega)]
        rfl
    · rw [itemsWithin, List.append_assoc]
      cases vs with
      | nil =>
        simp only [itemTokens, List.length_cons, List.length_nil] at h
        rw [ihValue v _ (by omega)]
        rfl
      | cons w ws =>
        simp only [itemTokens, List.length_cons, List.length_append] at h
        rw [ihValue v _ (by omega)]
        simp only [itemTokens, List.cons_append, Option.bind_eq_bind, Option.bind_some,
          ihItems w ws rest (by omega)]
        rfl
    · rw [membersWithin, List.append_assoc]
      match ms with
      | [] =>
        simp only [memberTokens, List.length_cons, List.length_nil] at h
        rw [ihValue v _ (by omega)]
        rfl
      | (l, w) :: ns =>
        simp only [memberTokens, List.length_cons, List.length_append] at h
        rw [ihValue v _ (by omega)]
        simp only [memberTokens, List.cons_append, Option.bind_eq_bind, Option.bind_some,
          ihMembers l w ns rest (by omega)]
        rfl

theorem ofTokens?_tokens (v : Value) : ofTokens? v.tokens = some v := by
  have h := (read_tokens (2 * v.tokens.length + 1)).1 v [] (by omega)
  rw [List.append_nil] at h
  rw [ofTokens?, h]

/-! ## From characters to tokens -/

theorem scans_openBrace {rest : List Char} {us : List Token} (h : Scans rest us) :
    Scans ('\x7b' :: rest) (.openBrace :: us) :=
  scans_token (by decide) rfl (Nat.le_refl _) h

theorem scans_closeBrace {rest : List Char} {us : List Token} (h : Scans rest us) :
    Scans ('\x7d' :: rest) (.closeBrace :: us) :=
  scans_token (by decide) rfl (Nat.le_refl _) h

theorem scans_openBracket {rest : List Char} {us : List Token} (h : Scans rest us) :
    Scans ('[' :: rest) (.openBracket :: us) :=
  scans_token (by decide) rfl (Nat.le_refl _) h

theorem scans_closeBracket {rest : List Char} {us : List Token} (h : Scans rest us) :
    Scans (']' :: rest) (.closeBracket :: us) :=
  scans_token (by decide) rfl (Nat.le_refl _) h

theorem scans_colon {rest : List Char} {us : List Token} (h : Scans rest us) :
    Scans (':' :: rest) (.colon :: us) :=
  scans_token (by decide) rfl (Nat.le_refl _) h

theorem scans_comma {rest : List Char} {us : List Token} (h : Scans rest us) :
    Scans (',' :: rest) (.comma :: us) :=
  scans_token (by decide) rfl (Nat.le_refl _) h

theorem scans_textChars {s : Text} (hs : s.isSome) {rest : List Char} {us : List Token}
    (h : Scans rest us) : Scans (textChars s ++ rest) (.string s :: us) := by
  obtain ⟨t, rfl⟩ := Option.isSome_iff_exists.mp hs
  have hread := string?_quoted t rest
  simp only [textChars, quoted, Option.getD_some, List.cons_append, List.append_assoc,
    List.nil_append]
  refine scans_token (by decide) ?_ ?_ h
  · change (string? _).map _ = _
    rw [hread]
    rfl
  · simp
    omega

theorem isBlank_toChar (d : Digit) : isBlank d.toChar = false := by
  revert d
  decide

theorem next?_toChar (d : Digit) (cs : List Char) :
    next? (d.toChar :: cs) = (numeral? (d.toChar :: cs)).map fun x => (.number x.1, x.2) := by
  match d with
  | 0 | 1 | 2 | 3 | 4 | 5 | 6 | 7 | 8 | 9 => rfl

/-- A numeral starts with a sign or a digit, so no other token is tried. -/
theorem next?_numeral {n : Numeral} (hn : n.WellFormed) (rest : List Char) :
    ∃ c cs, n.chars true = c :: cs ∧ isBlank c = false ∧
      next? (c :: (cs ++ rest)) =
        (numeral? (c :: (cs ++ rest))).map fun x => (.number x.1, x.2) := by
  obtain ⟨_ | _, whole, fraction, exponent⟩ := n
  · cases whole with
    | nil => exact absurd rfl hn.whole_ne
    | cons d ds => exact ⟨d.toChar, _, rfl, isBlank_toChar d, next?_toChar d _⟩
  · exact ⟨'-', _, rfl, by decide, rfl⟩

theorem scans_number {n : Numeral} (hn : n.WellFormed) {rest : List Char} {us : List Token}
    (hend : EndsNumeral rest) (h : Scans rest us) :
    Scans (n.chars true ++ rest) (.number n :: us) := by
  obtain ⟨c, cs, hchars, hblank, hnext⟩ := next?_numeral hn rest
  have hread := numeral?_append hn hend
  rw [hchars, List.cons_append] at hread ⊢
  refine scans_token hblank ?_ (by simp) h
  rw [hnext, hread]
  rfl

theorem endsNumeral_cons {c : Char} (hd : Digit.ofChar? c = none) (hc : c ≠ '.' ∧ c ≠ 'e' ∧ c ≠ 'E')
    (cs : List Char) : EndsNumeral (c :: cs) := by
  intro x hx
  obtain rfl : c = x := Option.some.inj hx
  exact ⟨hd, hc⟩

theorem endsNumeral_nil : EndsNumeral [] := by
  intro _ h
  cases h

theorem endsNumeral_itemChars (vs : List Value) (rest : List Char) :
    EndsNumeral (itemChars vs ++ rest) := by
  cases vs <;> exact endsNumeral_cons (ofChar?_eq_none (by decide)) (by decide) _

theorem endsNumeral_memberChars (ms : List (Text × Value)) (rest : List Char) :
    EndsNumeral (memberChars ms ++ rest) := by
  rcases ms with _ | ⟨⟨k, v⟩, ms⟩ <;> exact endsNumeral_cons (ofChar?_eq_none (by decide)) (by decide) _

mutual

theorem scans_chars (v : Value) (hv : v.WellFormed) {rest : List Char} {us : List Token}
    (hend : EndsNumeral rest) (h : Scans rest us) : Scans (v.chars ++ rest) (v.tokens ++ us) := by
  match v, hv with
  | .null, _ => exact scans_token (by decide) rfl (by simp; omega) h
  | .bool true, _ => exact scans_token (by decide) rfl (by simp; omega) h
  | .bool false, _ => exact scans_token (by decide) rfl (by simp; omega) h
  | .number n, hv => exact scans_number hv hend h
  | .string s, hv => exact scans_textChars hv h
  | .array [], _ => exact scans_openBracket (scans_closeBracket h)
  | .array (v :: vs), hv =>
    simp only [chars, tokens, List.cons_append, List.append_assoc]
    exact scans_openBracket (scans_chars v hv.1 (endsNumeral_itemChars vs rest)
      (scans_itemChars vs hv.2 h))
  | .object [], _ => exact scans_openBrace (scans_closeBrace h)
  | .object ((k, v) :: ms), hv =>
    simp only [chars, tokens, List.cons_append, List.append_assoc]
    exact scans_openBrace (scans_textChars hv.1 (scans_colon
      (scans_chars v hv.2.1 (endsNumeral_memberChars ms rest) (scans_memberChars ms hv.2.2 h))))

theorem scans_itemChars (vs : List Value) (hvs : ItemsWellFormed vs) {rest : List Char}
    {us : List Token} (h : Scans rest us) : Scans (itemChars vs ++ rest) (itemTokens vs ++ us) := by
  match vs, hvs with
  | [], _ => exact scans_closeBracket h
  | v :: vs, hvs =>
    simp only [itemChars, itemTokens, List.cons_append, List.append_assoc]
    exact scans_comma (scans_chars v hvs.1 (endsNumeral_itemChars vs rest)
      (scans_itemChars vs hvs.2 h))

theorem scans_memberChars (ms : List (Text × Value)) (hms : MembersWellFormed ms)
    {rest : List Char} {us : List Token} (h : Scans rest us) :
    Scans (memberChars ms ++ rest) (memberTokens ms ++ us) := by
  match ms, hms with
  | [], _ => exact scans_closeBrace h
  | (k, v) :: ms, hms =>
    simp only [memberChars, memberTokens, List.cons_append, List.append_assoc]
    exact scans_comma (scans_textChars hms.1 (scans_colon
      (scans_chars v hms.2.1 (endsNumeral_memberChars ms rest) (scans_memberChars ms hms.2.2 h))))

end

/-- A well-formed value is read back from its compact form. -/
theorem parse?_compact {v : Value} (hv : v.WellFormed) : parse? v.compact = some v := by
  have hscan := scans_chars v hv endsNumeral_nil scans_nil
  rw [List.append_nil, List.append_nil] at hscan
  rw [parse?, compact, String.toList_ofList, scan_eq hscan]
  exact ofTokens?_tokens v

/-! ## Indented forms -/

theorem scans_newLine (depth : ℕ) {rest : List Char} {us : List Token} (h : Scans rest us) :
    Scans (newLine depth ++ rest) us := by
  have blanks (n : ℕ) : Scans (List.replicate n ' ' ++ rest) us := by
    induction n with
    | zero => exact h
    | succ n ih => exact scans_blank (by decide) ih
  exact scans_blank (by decide) (blanks _)

theorem endsNumeral_indentedItems (depth : ℕ) (vs : List Value) (rest : List Char) :
    EndsNumeral (indentedItems depth vs ++ rest) := by
  cases vs <;> exact endsNumeral_cons (ofChar?_eq_none (by decide)) (by decide) _

theorem endsNumeral_indentedMembers (depth : ℕ) (ms : List (Text × Value)) (rest : List Char) :
    EndsNumeral (indentedMembers depth ms ++ rest) := by
  rcases ms with _ | ⟨⟨k, v⟩, ms⟩ <;> exact endsNumeral_cons (ofChar?_eq_none (by decide)) (by decide) _

theorem scans_name {k : Text} (hk : k.isSome) {rest : List Char} {us : List Token}
    (h : Scans rest us) :
    Scans (textChars k ++ ([':', ' '] ++ rest)) (.string k :: .colon :: us) :=
  scans_textChars hk (scans_colon (scans_blank (by decide) h))

mutual

theorem scans_indentedChars (depth : ℕ) (v : Value) (hv : v.WellFormed) {rest : List Char}
    {us : List Token} (hend : EndsNumeral rest) (h : Scans rest us) :
    Scans (v.indentedChars depth ++ rest) (v.tokens ++ us) := by
  match v, hv with
  | .null, _ => exact scans_token (by decide) rfl (by simp; omega) h
  | .bool true, _ => exact scans_token (by decide) rfl (by simp; omega) h
  | .bool false, _ => exact scans_token (by decide) rfl (by simp; omega) h
  | .number n, hv => exact scans_number hv hend h
  | .string s, hv => exact scans_textChars hv h
  | .array [], _ => exact scans_openBracket (scans_closeBracket h)
  | .array (v :: vs), hv =>
    simp only [indentedChars, tokens, List.cons_append, List.append_assoc]
    exact scans_openBracket (scans_newLine _ (scans_indentedChars _ v hv.1
      (endsNumeral_indentedItems depth vs rest) (scans_indentedItems depth vs hv.2 h)))
  | .object [], _ => exact scans_openBrace (scans_closeBrace h)
  | .object ((k, v) :: ms), hv =>
    simp only [indentedChars, tokens, List.cons_append, List.append_assoc]
    exact scans_openBrace (scans_newLine _ (scans_name hv.1 (scans_indentedChars _ v hv.2.1
      (endsNumeral_indentedMembers depth ms rest) (scans_indentedMembers depth ms hv.2.2 h))))

theorem scans_indentedItems (depth : ℕ) (vs : List Value) (hvs : ItemsWellFormed vs)
    {rest : List Char} {us : List Token} (h : Scans rest us) :
    Scans (indentedItems depth vs ++ rest) (itemTokens vs ++ us) := by
  match vs, hvs with
  | [], _ =>
    rw [indentedItems, List.append_assoc]
    exact scans_newLine _ (scans_closeBracket h)
  | v :: vs, hvs =>
    simp only [indentedItems, itemTokens, List.cons_append, List.append_assoc]
    exact scans_comma (scans_newLine _ (scans_indentedChars _ v hvs.1
      (endsNumeral_indentedItems depth vs rest) (scans_indentedItems depth vs hvs.2 h)))

theorem scans_indentedMembers (depth : ℕ) (ms : List (Text × Value))
    (hms : MembersWellFormed ms) {rest : List Char} {us : List Token} (h : Scans rest us) :
    Scans (indentedMembers depth ms ++ rest) (memberTokens ms ++ us) := by
  match ms, hms with
  | [], _ =>
    rw [indentedMembers, List.append_assoc]
    exact scans_newLine _ (scans_closeBrace h)
  | (k, v) :: ms, hms =>
    simp only [indentedMembers, memberTokens, List.cons_append, List.append_assoc]
    exact scans_comma (scans_newLine _ (scans_name hms.1 (scans_indentedChars _ v hms.2.1
      (endsNumeral_indentedMembers depth ms rest) (scans_indentedMembers depth ms hms.2.2 h))))

end

/-- A well-formed value is read back from its indented form. -/
theorem parse?_indented {v : Value} (hv : v.WellFormed) : parse? v.indented = some v := by
  have hscan := scans_indentedChars 0 v hv endsNumeral_nil scans_nil
  rw [List.append_nil, List.append_nil] at hscan
  rw [parse?, indented, String.toList_ofList, scan_eq hscan]
  exact ofTokens?_tokens v

end Value
end QubitPulse.Json
