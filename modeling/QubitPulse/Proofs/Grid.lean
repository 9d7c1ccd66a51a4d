import Mathlib.Data.List.Basic
import Mathlib.Order.Lattice
import QubitPulse.Grid

/-!
# Rows and columns of grids

A grid inside its rectangle is read entry by entry, and so are its rows and columns.
-/
namespace QubitPulse.Grid

variable {β : Type} {g : Grid β}

theorem getElem?_eq_getD {i j : ℕ} (hi : i < g.rows) (hj : j < g.cols) (fallback : β) :
    g.entries[i * g.cols + j]? = some (g.getD i j fallback) := by
  have hposition : i * g.cols + j < g.entries.size := by
    rw [g.size_eq]
    exact index_lt hi hj
  simp [getD, hj, hposition]

/-- A column of a grid, by its entries. -/
theorem column?_eq {k : ℕ} (hk : k < g.cols) (fallback : β) :
    g.column? k = some ((List.range g.rows).map fun i => g.getD i k fallback) := by
  rw [column?, if_pos hk, List.filterMap_congr fun i hi =>
    getElem?_eq_getD (List.mem_range.mp hi) hk fallback, List.filterMap_eq_map']

theorem column?_ofFn {m n j : ℕ} (f : ℕ → ℕ → β) (hj : j < n) :
    (ofFn m n f).column? j = some ((List.range m).map fun i => f i j) := by
  cases m with
  | zero => simp [column?, hj]
  | succ m =>
    rw [column?_eq hj (f 0 j)]
    refine congrArg some (List.map_congr_left fun i hi => ?_)
    exact getD_ofFn f _ (List.mem_range.mp hi) hj

/-- A row of a grid, by its entries. -/
theorem row_eq {i : ℕ} (hi : i < g.rows) (fallback : β) :
    g.row i = (List.range g.cols).map fun j => g.getD i j fallback := by
  have hlength : (i + 1) * g.cols - i * g.cols = g.cols := by
    rw [Nat.add_mul, Nat.one_mul, Nat.add_sub_cancel_left]
  refine List.ext_getElem? fun j => ?_
  by_cases hj : j < g.cols
  · simp [row, hlength, hj, getElem?_eq_getD hi hj fallback]
  · simp [row, hlength, hj]

/-- Every place of the entries is that of a position. -/
theorem exists_position {m n k : ℕ} (hk : k < m * n) : ∃ i < m, ∃ j < n, k = i * n + j := by
  have hn : 0 < n := Nat.pos_of_mul_pos_left (Nat.zero_lt_of_lt hk)
  have hrow : k / n < m := Nat.div_lt_of_lt_mul (Nat.mul_comm m n ▸ hk)
  exact ⟨k / n, hrow, k % n, Nat.mod_lt k hn, (Nat.div_add_mod' k n).symm⟩

theorem ofFn_congr {m n : ℕ} {f f' : ℕ → ℕ → β} (h : ∀ i < m, ∀ j < n, f i j = f' i j) :
    ofFn m n f = ofFn m n f' := by
  unfold ofFn
  congr 2
  funext k
  have hn : 0 < n := Nat.pos_of_mul_pos_left (Nat.zero_lt_of_lt k.isLt)
  exact h _ (Nat.div_lt_of_lt_mul (Nat.mul_comm m n ▸ k.isLt)) _ (Nat.mod_lt _ hn)

/-! ## Grids of columns -/

/-- Every entry of a grid of columns is an entry of a column or the fallback. -/
theorem mem_ofColumns {rows : ℕ} {columns : List (List β)} {fallback x : β}
    (h : x ∈ (ofColumns rows columns fallback).entries) :
    x = fallback ∨ ∃ c ∈ columns, x ∈ c := by
  simp only [ofColumns, ofFn, Array.mem_ofFn] at h
  obtain ⟨k, rfl⟩ := h
  simp only [Array.getD_eq_getD_getElem?, List.getElem?_toArray, List.getElem?_map]
  cases hc : columns[(k : ℕ) % columns.length]? with
  | none => simp_all
  | some column =>
    cases hx : column[(k : ℕ) / columns.length]? with
    | none => simp_all
    | some x =>
      refine .inr ⟨column, List.mem_of_getElem? hc, ?_⟩
      simp_all [List.mem_of_getElem? hx]

theorem map_map {γ δ : Type} (g : Grid β) (f : β → γ) (f' : γ → δ) :
    (g.map f).map f' = g.map (f' ∘ f) := by
  simp [map]

/-- A column of full length is read as it was given. -/
theorem column?_ofColumns {rows k : ℕ} {columns : List (List β)} {c : List β} {fallback : β}
    (hc : columns[k]? = some c) (hlength : c.length = rows) :
    (ofColumns rows columns fallback).column? k = some c := by
  obtain ⟨hk, rfl⟩ := List.getElem?_eq_some_iff.mp hc
  have hstored : k < (columns.map List.toArray).toArray.size := by simpa using hk
  unfold ofColumns
  rw [column?_ofFn _ hstored]
  refine congrArg some (List.ext_getElem (by simp [hlength]) fun i hi hi' => ?_)
  simp [hk, hi']

theorem mapM_eq_some {γ : Type} {f : β → Option γ} {g : β → γ} {xs : List β}
    (h : ∀ x ∈ xs, f x = some (g x)) : xs.mapM f = some (xs.map g) := by
  induction xs with
  | nil => rfl
  | cons x xs ih =>
    rw [List.mapM_cons, h x (by simp), ih fun x hx => h x (by simp [hx])]
    rfl

/-- Columns of full length are stacked without a fallback. -/
theorem ofColumns?_eq {rows : ℕ} {columns : Array (List β)} (fallback : β)
    (h : ∀ column ∈ columns, column.length = rows) :
    ofColumns? rows columns = some (ofColumns rows columns.toList fallback) := by
  have hentry : ∀ k ∈ List.range (rows * columns.size),
      (columns[k % columns.size]?.bind fun column => column[k / columns.size]?) =
        some ((((columns.toList.map List.toArray).toArray).getD (k % columns.size) #[]).getD
          (k / columns.size) fallback) := by
    intro k hk
    have hk := List.mem_range.mp hk
    have hcols : 0 < columns.size := Nat.pos_of_mul_pos_left (Nat.zero_lt_of_lt hk)
    have hcol : k % columns.size < columns.size := Nat.mod_lt k hcols
    have hrow : k / columns.size < columns[k % columns.size].length := by
      rw [h _ (Array.getElem_mem hcol)]
      exact Nat.div_lt_of_lt_mul (Nat.mul_comm rows columns.size ▸ hk)
    simp [hcol, hrow]
  unfold ofColumns?
  rw [mapM_eq_some hentry]
  simp [ofList?, ofColumns, ofFn, Array.ext_iff]

end QubitPulse.Grid
