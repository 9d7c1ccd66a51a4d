import Mathlib.Tactic.Common
import QubitPulse.Json.Token

/-!
# Numerals in documents

A numeral can be read back from its characters if it has digits where the grammar asks for them and no
needless zero in front. Natural numbers are written with such numerals, and they keep their value.
-/
namespace QubitPulse

namespace Digit

theorem ofChar?_toChar (d : Digit) : ofChar? d.toChar = some d := by
  unfold ofChar?
  revert d
  decide

theorem toChar_ne_minus (d : Digit) : d.toChar ≠ '-' := by
  revert d
  decide

theorem collect_ne_nil (n : ℕ) (ds : List Digit) : collect n ds ≠ [] := by
  induction n using Nat.strongRecOn generalizing ds with
  | ind n ih =>
    unfold collect
    split_ifs with h
    · exact List.cons_ne_nil _ _
    · exact ih (n / 10) (by omega) _

theorem ofNat_ne_nil (n : ℕ) : ofNat n ≠ [] := collect_ne_nil n []

/-- Collected digits are those of the number, followed by the digits collected before. -/
theorem collect_eq_append (n : ℕ) (ds : List Digit) : collect n ds = ofNat n ++ ds := by
  induction n using Nat.strongRecOn generalizing ds with
  | ind n ih =>
    unfold ofNat collect
    split_ifs with h
    · rfl
    · rw [ih _ (by omega), ih (n / 10) (by omega) [_], List.append_assoc]
      rfl

theorem ofNat_of_lt {n : ℕ} (h : n < 10) : ofNat n = [Fin.ofNat 10 n] := by
  unfold ofNat collect
  rw [if_pos h]

theorem ofNat_of_ge {n : ℕ} (h : 10 ≤ n) : ofNat n = ofNat (n / 10) ++ [Fin.ofNat 10 n] := by
  rw [← collect_eq_append]
  conv_lhs => rw [ofNat, collect]
  rw [if_neg (by omega)]

/-- The digits of a number name it. -/
theorem value_ofNat (n : ℕ) : value (ofNat n) = n := by
  induction n using Nat.strongRecOn with
  | ind n ih =>
    rcases Nat.lt_or_ge n 10 with h | h
    · rw [ofNat_of_lt h]
      simp [value, Fin.ofNat, Nat.mod_eq_of_lt h]
    · have hrest := ih (n / 10) (by omega)
      unfold value at hrest ⊢
      rw [ofNat_of_ge h, List.foldl_append, hrest]
      simp only [List.foldl_cons, List.foldl_nil, Fin.ofNat]
      omega

/-- No number but zero is written with a zero in front. -/
theorem head?_ofNat {n : ℕ} (h : 0 < n) : (ofNat n).head? ≠ some zero := by
  induction n using Nat.strongRecOn with
  | ind n ih =>
    rcases Nat.lt_or_ge n 10 with hlt | hge
    · rw [ofNat_of_lt hlt]
      intro heq
      have := congrArg Fin.val (Option.some.inj heq)
      simp only [Fin.ofNat, zero, Nat.mod_eq_of_lt hlt] at this
      omega
    · have hrest := ih (n / 10) (by omega) (by omega)
      rw [ofNat_of_ge hge]
      cases hds : ofNat (n / 10) with
      | nil => exact absurd hds (ofNat_ne_nil _)
      | cons d ds =>
        rw [hds] at hrest
        exact hrest

theorem length_ofNat_zero : (ofNat 0).length = 1 := by
  rw [ofNat_of_lt (by omega)]
  rfl

end Digit

/-- A numeral of the grammar of documents. -/
structure Numeral.WellFormed (n : Numeral) : Prop where
  whole_ne : n.whole ≠ []
  /-- A leading zero stands alone. -/
  leading : n.whole.head? = some Digit.zero → n.whole.length = 1
  exponent : ∀ e ∈ n.exponent, e.digits ≠ []

theorem Numeral.wellFormed_ofNat (n : ℕ) : (Numeral.ofNat n).WellFormed := by
  refine ⟨Digit.ofNat_ne_nil n, fun h => ?_, fun e he => by cases he⟩
  rcases Nat.eq_zero_or_pos n with rfl | hn
  · exact Digit.length_ofNat_zero
  · exact absurd h (Digit.head?_ofNat hn)

theorem Numeral.toNat?_ofNat (n : ℕ) : (Numeral.ofNat n).toNat? = some n := by
  simp [Numeral.ofNat, Numeral.toNat?, Digit.value_ofNat]

namespace Json.Token

/-- Characters that can follow a numeral: none of them continues it. -/
def EndsNumeral (cs : List Char) : Prop :=
  ∀ c, cs.head? = some c → Digit.ofChar? c = none ∧ c ≠ '.' ∧ c ≠ 'e' ∧ c ≠ 'E'

theorem digits_append (ds : List Digit) {rest : List Char}
    (h : ∀ c, rest.head? = some c → Digit.ofChar? c = none) :
    digits (ds.map Digit.toChar ++ rest) = (ds, rest) := by
  induction ds with
  | nil =>
    cases rest with
    | nil => rfl
    | cons c cs =>
      change digits (c :: cs) = _
      unfold digits
      rw [h c rfl]
  | cons d ds ih =>
    rw [List.map_cons, List.cons_append]
    unfold digits
    rw [Digit.ofChar?_toChar]
    simp only [ih]

theorem whole?_append {ds : List Digit} {rest : List Char} (hne : ds ≠ [])
    (hlead : ds.head? = some Digit.zero → ds.length = 1)
    (h : ∀ c, rest.head? = some c → Digit.ofChar? c = none) :
    whole? (ds.map Digit.toChar ++ rest) = some (ds, rest) := by
  unfold whole?
  rw [digits_append ds h]
  cases ds with
  | nil => exact absurd rfl hne
  | cons d ds =>
    simp only [ite_eq_right_iff, reduceCtorEq, imp_false, Bool.and_eq_true, not_and]
    simp_all

theorem fraction?_append (ds : List Digit) {rest : List Char}
    (h : ∀ c, rest.head? = some c → Digit.ofChar? c = none ∧ c ≠ '.') :
    fraction? ((if ds.isEmpty then [] else '.' :: ds.map Digit.toChar) ++ rest) =
      some (ds, rest) := by
  cases ds with
  | nil =>
    cases rest with
    | nil => rfl
    | cons c cs =>
      obtain ⟨_, hc⟩ := h c rfl
      simp only [List.isEmpty_nil, if_true, List.nil_append]
      unfold fraction?
      split
      · next heq => exact absurd (List.cons.inj heq).1 hc
      · rfl
  | cons d ds =>
    have := digits_append (d :: ds) fun c hc => (h c hc).1
    simp only [List.isEmpty_cons, Bool.false_eq_true, if_false, List.cons_append, fraction?]
    rw [this]

theorem exponent?_append {e : Option Exponent} (he : ∀ x ∈ e, x.digits ≠ []) {rest : List Char}
    (h : EndsNumeral rest) :
    exponent? (e.elim [] (Exponent.chars true) ++ rest) = some (e, rest) := by
  cases e with
  | none =>
    cases rest with
    | nil => rfl
    | cons c cs =>
      obtain ⟨_, _, h₁, h₂⟩ := h c rfl
      simp [exponent?, h₁, h₂]
  | some e =>
    obtain ⟨negative, ds⟩ := e
    have hds := digits_append ds fun c hc => (h c hc).1
    cases ds with
    | nil => exact absurd rfl (he _ rfl)
    | cons d ds => cases negative <;> simp_all [exponent?, Exponent.chars]

/-- Only the characters of digits are read as digits. -/
theorem ofChar?_eq_none {c : Char} (h : c.toNat < 48 ∨ 57 < c.toNat) : Digit.ofChar? c = none := by
  unfold Digit.ofChar?
  dsimp only
  split_ifs with hdigit hlow
  · omega
  · rfl
  · rfl

theorem head?_exponent {e : Option Exponent} {rest : List Char} (h : EndsNumeral rest) (c : Char)
    (hc : (e.elim [] (Exponent.chars true) ++ rest).head? = some c) :
    Digit.ofChar? c = none ∧ c ≠ '.' := by
  cases e with
  | none => exact ⟨(h c hc).1, (h c hc).2.1⟩
  | some e =>
    obtain rfl : 'e' = c := Option.some.inj hc
    exact ⟨ofChar?_eq_none (by decide), by decide⟩

theorem head?_fraction (ds : List Digit) {rest : List Char}
    (h : ∀ c, rest.head? = some c → Digit.ofChar? c = none ∧ c ≠ '.') (c : Char)
    (hc : ((if ds.isEmpty then [] else '.' :: ds.map Digit.toChar) ++ rest).head? = some c) :
    Digit.ofChar? c = none := by
  cases ds with
  | nil => exact (h c hc).1
  | cons d ds =>
    obtain rfl : '.' = c := Option.some.inj hc
    exact ofChar?_eq_none (by decide)

/-- Characters of a numeral after its sign. -/
def unsignedChars (n : Numeral) : List Char :=
  n.whole.map Digit.toChar ++ ((if n.fraction.isEmpty then [] else '.' :: n.fraction.map Digit.toChar)
    ++ n.exponent.elim [] (Exponent.chars true))

theorem chars_eq (n : Numeral) :
    n.chars true = (if n.negative then ['-'] else []) ++ unsignedChars n := by
  obtain ⟨negative, whole, fraction, _ | e⟩ := n <;> simp [Numeral.chars, unsignedChars]

/-- A well-formed numeral is read back from its characters. -/
theorem numeral?_append {n : Numeral} (hn : n.WellFormed) {rest : List Char}
    (h : EndsNumeral rest) : numeral? (n.chars true ++ rest) = some (n, rest) := by
  have hexponent := exponent?_append hn.exponent h
  have hfraction := fraction?_append n.fraction (head?_exponent (e := n.exponent) h)
  have hwhole := whole?_append hn.whole_ne hn.leading
    (head?_fraction n.fraction (head?_exponent (e := n.exponent) h))
  have hunsigned : unsignedChars n ++ rest = n.whole.map Digit.toChar ++
      ((if n.fraction.isEmpty then [] else '.' :: n.fraction.map Digit.toChar) ++
        (n.exponent.elim [] (Exponent.chars true) ++ rest)) := by
    simp only [unsignedChars, List.append_assoc]
  obtain ⟨negative, whole, fraction, exponent⟩ := n
  rw [chars_eq, List.append_assoc, hunsigned]
  cases negative with
  | true =>
    simp only [numeral?, if_true, List.singleton_append, hwhole, hfraction, hexponent,
      Option.bind_eq_bind, Option.bind_some]
    rfl
  | false =>
    cases whole with
    | nil => exact absurd rfl hn.whole_ne
    | cons d ds =>
      simp only [numeral?, Bool.false_eq_true, if_false, List.nil_append, List.map_cons,
        List.cons_append]
      split
      · next heq => exact absurd (List.cons.inj heq).1 (Digit.toChar_ne_minus d)
      · rw [← List.cons_append, ← List.map_cons]
        simp only [hwhole, hfraction, hexponent, Option.bind_eq_bind, Option.bind_some]
        rfl

end Json.Token
end QubitPulse
