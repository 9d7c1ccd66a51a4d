import Mathlib.Tactic.SplitIfs
import QubitPulse.Storage

/-!
# Room for rows and squares

What is asked for is little or is given by the caller. An array has room where its bytes can be counted, and
an array without entries where its rows can be.
-/
namespace QubitPulse.Storage

theorem fits_row (n : Nat) : fits 1 [n] = decide (8 * n ≤ Word.mostBytes) := by
  by_cases h : 8 * n ≤ Word.mostBytes
  · have hok := reserve_row (α := Unit) Nat.one_pos h
    unfold reserve at hok
    split_ifs at hok with hfits
    rw [hfits, decide_eq_true h]
  · rw [decide_eq_false h, fits]
    simp [h]

theorem fits_noColumns (n : Nat) : fits 1 [n, 0] = decide (n ≤ Word.mostBytes) := by
  by_cases hn : n = 0
  · simp [fits, Word.addressable, Word.mostBytes, hn]
  · simp [fits, Word.addressable, hn]

/-- A square matrix of a dimension finds room where the bytes of its entries can be counted. -/
theorem fits_square (d : Nat) : fits 2 [d, d] = decide (16 * (d * d) ≤ Word.mostBytes) := by
  have haddressable : 16 * (d * d) ≤ Word.mostBytes → Word.addressable [d, d] = true := by
    intro hbytes
    have hsquare : d * d ≤ Word.mostBytes := by omega
    by_cases hd : d = 0
    · subst hd
      decide
    · simp [Word.addressable, hd, hsquare]
  by_cases hbytes : 16 * (d * d) ≤ Word.mostBytes
  · simp [fits, haddressable hbytes, hbytes]
  · simp [fits, hbytes]

/-- As many values as a chain has controls always find room. -/
theorem reserve_few {α : Type} {n : Nat} (h : n ≤ 24) : (reserve 1 [n] : Result α Unit) = .ok () :=
  reserve_row Nat.one_pos (by simp [Word.mostBytes]; omega)

end QubitPulse.Storage
