import QubitPulse.Json.Writer
import QubitPulse.Proofs.Decimal.Numeral

/-!
# Reading the characters of a document

Strings and numerals are read back from their characters, and so is every sequence of tokens with
blanks between them. The steps of a scan are bounded by the characters that are left, so a scan of
what follows decides the scan of the whole.
-/
namespace QubitPulse.Json.Token
open Value (escapeChar hexChar quoted textChars)

/-! ## Strings -/

theorem unit?_hexChar {n : ℕ} (h : n < 32) :
    unit? '0' '0' (hexChar (n / 16)) (hexChar (n % 16)) = some n := by
  have all : ∀ k : Fin 32, unit? '0' '0' (hexChar (k.val / 16)) (hexChar (k.val % 16)) =
      some k.val := by
    decide
  exact all ⟨n, h⟩

/-- The piece of a string stands for the character. -/
def Piece.StandsFor (p : Piece) (c : Char) : Prop :=
  p = .char c ∨ p = .unit c.toNat ∧ c.toNat < 32

/-- A backslash and a letter are read as the character of the escape. -/
theorem pieces?_escape {e c : Char} (hu : e ≠ 'u') (h : escape? e = some c) (rest : List Char) :
    pieces? ('\\' :: e :: rest) = (pieces? rest).map fun x => (.char c :: x.1, x.2) := by
  rw [pieces?.eq_3 _ _ fun _ _ _ _ _ he _ => hu he, h]
  cases pieces? rest <;> rfl

theorem pieces?_unit {a b c d : Char} {n : ℕ} (h : unit? a b c d = some n) (rest : List Char) :
    pieces? ('\\' :: 'u' :: a :: b :: c :: d :: rest) =
      (pieces? rest).map fun x => (.unit n :: x.1, x.2) := by
  rw [pieces?.eq_2, h]
  cases pieces? rest <;> rfl

theorem pieces?_plain {c : Char} (hq : c ≠ '"') (hb : c ≠ '\\') (hc : 32 ≤ c.toNat)
    (rest : List Char) :
    pieces? (c :: rest) = (pieces? rest).map fun x => (.char c :: x.1, x.2) := by
  rw [pieces?.eq_4 _ _ hq (fun _ _ _ _ _ h _ => hb h) (fun _ _ h _ => hb h), if_neg (by omega)]
  cases pieces? rest <;> rfl

/-- A character that is written in a string is read as one piece. -/
theorem pieces?_escapeChar (c : Char) :
    ∃ p : Piece, p.StandsFor c ∧ ∀ rest,
      pieces? (escapeChar c ++ rest) = (pieces? rest).map fun x => (p :: x.1, x.2) := by
  unfold escapeChar
  split
  · exact ⟨_, .inl rfl, pieces?_escape (by decide) (by decide)⟩
  · exact ⟨_, .inl rfl, pieces?_escape (by decide) (by decide)⟩
  · exact ⟨_, .inl rfl, pieces?_escape (by decide) (by decide)⟩
  · exact ⟨_, .inl rfl, pieces?_escape (by decide) (by decide)⟩
  · exact ⟨_, .inl rfl, pieces?_escape (by decide) (by decide)⟩
  · next hq hb _ _ _ =>
    split_ifs with h₈ h₁₂ hlow
    · have hc : c = Char.ofNat 8 := by rw [← h₈, Char.ofNat_toNat]
      subst hc
      exact ⟨_, .inl rfl, pieces?_escape (by decide) (by decide)⟩
    · have hc : c = Char.ofNat 12 := by rw [← h₁₂, Char.ofNat_toNat]
      subst hc
      exact ⟨_, .inl rfl, pieces?_escape (by decide) (by decide)⟩
    · exact ⟨_, .inr ⟨rfl, hlow⟩, pieces?_unit (unit?_hexChar hlow)⟩
    · exact ⟨_, .inl rfl, pieces?_plain hq hb (by omega)⟩

/-- A piece that stands for a character is assembled to it, whatever follows. -/
theorem assemble?_cons {p : Piece} {c : Char} (h : p.StandsFor c) (ps : List Piece) :
    assemble? (p :: ps) = (assemble? ps).map (c :: ·) := by
  rcases h with rfl | ⟨rfl, hc⟩
  · exact assemble?.eq_2 c ps
  · have hhigh : isHighHalf c.toNat = false := by
      simp only [isHighHalf, Bool.and_eq_false_imp, decide_eq_true_eq]
      omega
    have hlow : isLowHalf c.toNat = false := by
      simp only [isLowHalf, Bool.and_eq_false_imp, decide_eq_true_eq]
      omega
    cases ps with
    | nil => simp [assemble?, hhigh, hlow, Char.ofNat_toNat]
    | cons q ps => cases q <;> simp [assemble?, hhigh, hlow, Char.ofNat_toNat]

/-- The pieces of a string are those of its characters. -/
theorem pieces?_quoted (cs : List Char) :
    ∃ ps, assemble? ps = some cs ∧
      ∀ rest, pieces? (cs.flatMap escapeChar ++ '"' :: rest) = some (ps, rest) := by
  induction cs with
  | nil => exact ⟨[], rfl, pieces?.eq_1⟩
  | cons c cs ih =>
    obtain ⟨ps, hps, hread⟩ := ih
    obtain ⟨p, hp, hfirst⟩ := pieces?_escapeChar c
    refine ⟨p :: ps, ?_, fun rest => ?_⟩
    · rw [assemble?_cons hp, hps]
      rfl
    · rw [List.flatMap_cons, List.append_assoc, hfirst, hread]
      rfl

theorem string?_quoted (s : String) (rest : List Char) :
    string? (s.toList.flatMap escapeChar ++ '"' :: rest) = some (some s, rest) := by
  obtain ⟨ps, hps, hread⟩ := pieces?_quoted s.toList
  simp [string?, hread, hps]

/-! ## Scans -/

/-- A text is scanned as these tokens, by as many steps as it has characters or more. -/
def Scans (cs : List Char) (ts : List Token) : Prop :=
  ∀ fuel, cs.length ≤ fuel → scanWithin fuel cs = some ts

theorem scans_nil : Scans [] [] := by
  intro fuel _
  cases fuel <;> rfl

theorem scans_blank {c : Char} {cs : List Char} {ts : List Token} (hc : isBlank c = true)
    (h : Scans cs ts) : Scans (c :: cs) ts := by
  intro fuel hfuel
  obtain ⟨fuel, rfl⟩ : ∃ k, fuel = k + 1 := ⟨fuel - 1, by simp at hfuel; omega⟩
  rw [scanWithin, if_pos hc]
  exact h fuel (by simpa using hfuel)

/-- A token that is read from the head of a text comes before those of the rest. -/
theorem scans_token {c : Char} {cs rest : List Char} {t : Token} {ts : List Token}
    (hc : isBlank c = false) (hnext : next? (c :: cs) = some (t, rest))
    (hlength : rest.length ≤ cs.length) (h : Scans rest ts) : Scans (c :: cs) (t :: ts) := by
  intro fuel hfuel
  obtain ⟨fuel, rfl⟩ : ∃ k, fuel = k + 1 := ⟨fuel - 1, by simp at hfuel; omega⟩
  rw [scanWithin, if_neg (by simp [hc]), hnext]
  simp only [List.length_cons] at hfuel
  simp [h fuel (by omega)]

theorem scan_eq {cs : List Char} {ts : List Token} (h : Scans cs ts) : scan cs = some ts :=
  h _ (Nat.le_refl _)

end QubitPulse.Json.Token
