/-!
# Tables and square grids

A table of length `n` is a vector, and an `n × n` grid is a table of `n` rows of length `n`. Their
positions are elements of `Fin n`, so that no operation on them can leave them. Builders and
searches go row by row from left to right, which is the order of `Grid.cells`.
-/

namespace LinearAssignment

/-- A table of `n` values. -/
abbrev Table (n : Nat) (α : Type) := Vector α n

namespace Table

variable {n : Nat} {α : Type}

/-- The entry at position `i`. -/
@[inline]
def entry (t : Table n α) (i : Fin n) : α :=
  t[i]

/-- The table with one entry changed. -/
@[inline]
def put (t : Table n α) (i : Fin n) (c : α) : Table n α :=
  t.set i c

@[simp]
theorem entry_ofFn (f : Fin n → α) (i : Fin n) : entry (Vector.ofFn f) i = f i := by
  simp [entry]

theorem entry_put (t : Table n α) (i j : Fin n) (c : α) :
    (t.put i c).entry j = if i = j then c else t.entry j := by
  simp only [put, entry, Fin.getElem_fin, Vector.getElem_set, Fin.ext_iff]

/-- Two tables with the same entries are equal. -/
theorem ext_entry {t u : Table n α} (h : ∀ i, t.entry i = u.entry i) : t = u :=
  Vector.ext fun i hi ↦ h ⟨i, hi⟩

end Table

/-- An `n × n` table of values. -/
abbrev Grid (n : Nat) (α : Type) := Table n (Table n α)

namespace Grid

variable {n : Nat} {α : Type}

/-- The grid of the values of a function. -/
@[inline]
def ofFn (f : Fin n → Fin n → α) : Grid n α :=
  Vector.ofFn fun i ↦ Vector.ofFn fun j ↦ f i j

/-- The grid of the results of an effectful function, which is run on the cells in row-major
order. -/
@[inline]
def ofFnM {m : Type → Type} [Monad m] (f : Fin n → Fin n → m α) : m (Grid n α) :=
  Vector.ofFnM fun i ↦ Vector.ofFnM fun j ↦ f i j

/-- The entry in row `i` and column `j`. -/
@[inline]
def cell (g : Grid n α) (i j : Fin n) : α :=
  (Table.entry g i).entry j

/-- The grid with one entry changed. -/
def put (g : Grid n α) (i j : Fin n) (c : α) : Grid n α :=
  Table.put g i ((Table.entry g i).put j c)

/-- The rows from top to bottom, each from left to right. -/
def rows (g : Grid n α) : List (List α) :=
  g.toList.map Vector.toList

/-- All entries in row-major order. -/
def entries (g : Grid n α) : List α :=
  g.rows.flatten

/-- All positions in row-major order. -/
def cells (n : Nat) : List (Fin n × Fin n) :=
  (List.finRange n).flatMap fun i ↦ (List.finRange n).map fun j ↦ (i, j)

/-! ### Laws -/

@[simp]
theorem cell_ofFn (f : Fin n → Fin n → α) (i j : Fin n) : (ofFn f).cell i j = f i j := by
  simp [ofFn, cell]

theorem cell_put (g : Grid n α) (i j : Fin n) (c : α) (i' j' : Fin n) :
    (g.put i j c).cell i' j' = if i = i' ∧ j = j' then c else g.cell i' j' := by
  simp only [put, cell, Table.entry_put]
  split
  · rename_i h
    simp [Table.entry_put, h]
  · rename_i h
    simp [h]

@[simp]
theorem length_rows (g : Grid n α) : g.rows.length = n := by
  simp [rows]

/-- Two grids with the same entries are equal. -/
theorem ext_cell {g h : Grid n α} (eq : ∀ i j, g.cell i j = h.cell i j) : g = h :=
  Table.ext_entry fun i ↦ Table.ext_entry fun j ↦ eq i j

theorem mem_cells (i j : Fin n) : (i, j) ∈ cells n := by
  simp [cells]

end Grid

end LinearAssignment
