/-!
# Grids

A grid stores a rectangle of entries row by row. Coefficients of a timeline, samples of a raster and
matrices are grids. `Grid.getD` reads any position and outside the rectangle gives a fallback, so that
a law about entries needs no proof about positions to be stated.
-/
namespace QubitPulse

structure Grid (β : Type) where
  rows : Nat
  cols : Nat
  entries : Array β
  size_eq : entries.size = rows * cols

namespace Grid

variable {β γ : Type}

instance : Inhabited (Grid β) := ⟨⟨0, 0, #[], rfl⟩⟩

instance [DecidableEq β] : DecidableEq (Grid β) := fun a b =>
  if h : a.rows = b.rows ∧ a.cols = b.cols ∧ a.entries = b.entries then
    isTrue (by cases a; cases b; simp_all)
  else isFalse (fun e => h (by simp [e]))

/-- The grid whose entry at each position is a function of that position. -/
@[inline] def ofFn (rows cols : Nat) (f : Nat → Nat → β) : Grid β where
  rows := rows
  cols := cols
  entries := Array.ofFn (n := rows * cols) fun k => f (k.val / cols) (k.val % cols)
  size_eq := Array.size_ofFn

def ofList? (rows cols : Nat) (entries : List β) : Option (Grid β) :=
  if h : entries.length = rows * cols then some ⟨rows, cols, entries.toArray, by simpa using h⟩
  else none

@[inline] def map (f : β → γ) (g : Grid β) : Grid γ where
  rows := g.rows
  cols := g.cols
  entries := g.entries.map f
  size_eq := by simpa using g.size_eq

/-- Entry at a position, or the fallback outside the rectangle. -/
@[inline] def getD (g : Grid β) (i j : Nat) (fallback : β) : β :=
  if j < g.cols then g.entries.getD (i * g.cols + j) fallback else fallback

def row (g : Grid β) (i : Nat) : List β :=
  (g.entries.extract (i * g.cols) ((i + 1) * g.cols)).toList

/-- Entries of a column that the grid has, from top to bottom. -/
def column? (g : Grid β) (j : Nat) : Option (List β) :=
  if j < g.cols then some ((List.range g.rows).filterMap fun i => g.entries[i * g.cols + j]?)
  else none

/-- Rows become columns. The fallback is never read. -/
def transpose (g : Grid β) (fallback : β) : Grid β :=
  ofFn g.cols g.rows fun i j => g.getD j i fallback

/-- The grid of the given columns; a column that is too short is filled up. -/
def ofColumns (rows : Nat) (columns : List (List β)) (fallback : β) : Grid β :=
  let stored := (columns.map List.toArray).toArray
  ofFn rows stored.size fun i j => (stored.getD j #[]).getD i fallback

/-- The grid of the given columns, if each of them has an entry for every row. -/
def ofColumns? (rows : Nat) (columns : Array (List β)) : Option (Grid β) := do
  let entries ← (List.range (rows * columns.size)).mapM fun k =>
    columns[k % columns.size]?.bind fun column => column[k / columns.size]?
  ofList? rows columns.size entries

@[simp] theorem rows_ofFn (m n : Nat) (f : Nat → Nat → β) : (ofFn m n f).rows = m := rfl

@[simp] theorem cols_ofFn (m n : Nat) (f : Nat → Nat → β) : (ofFn m n f).cols = n := rfl

@[simp] theorem rows_map (f : β → γ) (g : Grid β) : (g.map f).rows = g.rows := rfl

@[simp] theorem cols_map (f : β → γ) (g : Grid β) : (g.map f).cols = g.cols := rfl

theorem index_lt {m n i j : Nat} (hi : i < m) (hj : j < n) : i * n + j < m * n :=
  calc i * n + j < i * n + n := by omega
    _ = (i + 1) * n := by rw [Nat.add_mul, Nat.one_mul]
    _ ≤ m * n := Nat.mul_le_mul_right n hi

theorem getElem?_ofFn {m n i j : Nat} (f : Nat → Nat → β) (hi : i < m) (hj : j < n) :
    (ofFn m n f).entries[i * n + j]? = some (f i j) := by
  have hdiv : (i * n + j) / n = i := by
    rw [Nat.mul_comm, Nat.mul_add_div (by omega), Nat.div_eq_of_lt hj, Nat.add_zero]
  have hmod : (i * n + j) % n = j := by
    rw [Nat.mul_comm, Nat.mul_add_mod, Nat.mod_eq_of_lt hj]
  simp [ofFn, index_lt hi hj, hdiv, hmod]

theorem getD_ofFn {m n i j : Nat} (f : Nat → Nat → β) (fallback : β) (hi : i < m) (hj : j < n) :
    (ofFn m n f).getD i j fallback = f i j := by
  simp [getD, hj, getElem?_ofFn f hi hj]

end Grid
end QubitPulse
