import LinearAssignment.CostMatrix.Build
import LinearAssignment.Proofs.Checked
import LinearAssignment.Proofs.Readings
import Mathlib.Algebra.BigOperators.Group.List.Lemmas
import Mathlib.Data.List.ProdSigma

/-!
# Views of cost matrices

A matrix can be looked at by its entries, by its rows, and by single positions. The entries are in
row-major order: the entry in row `i` and column `j` is at place `i * n + j`, every place below
`n * n` is that of one position, and row `i` is the part from `i * n` up to `(i + 1) * n`
(`Grid.getElem?_entries`, `exists_index_eq`, `Grid.place_inj`, `Grid.drop_take_entries`). So a
matrix is as good as the flat list of its entries, with its rows as the chunks of this list
(`Grid.entries_eq_iff`, `Grid.rows_eq_toChunks`).

Each of the builders gives a matrix exactly if the data that it is given are what a view of the
matrix shows (`ofRows_eq_ok_iff`, `ofEntries_eq_pure_iff`, `ofFn_eq_ok_iff`, `ofFnM_eq_pure_iff`,
`ofPairs_eq_pure_iff`). So any view is enough to build the matrix again, and what holds of the views
of all matrices holds of those that are built (`CostMatrix.viewsAgree`). The builders from cost
functions make room first; there is room again for a matrix that is held in a vector.
-/

namespace LinearAssignment

variable {α : Type} {n : Nat}

/-- Every place is that of a row and a column. -/
theorem exists_index_eq {k : Nat} (hk : k < n * n) : ∃ i < n, ∃ j < n, i * n + j = k :=
  have hn : 0 < n := Nat.pos_of_mul_pos_left (Nat.zero_lt_of_lt hk)
  ⟨k / n, Nat.div_lt_of_lt_mul hk, k % n, Nat.mod_lt k hn, Nat.div_add_mod' k n⟩

/-- The places of a row are those from its start up to the start of the next one. -/
theorem place_mem_row_iff {i : Nat} (i' j' : Fin n) :
    (i * n ≤ i'.val * n + j'.val ∧ i'.val * n + j'.val < (i + 1) * n) ↔ i'.val = i := by
  have hn : 0 < n := j'.pos
  have hrow : (i'.val * n + j'.val) / n = i'.val := by
    rw [Nat.mul_comm, Nat.mul_add_div hn, Nat.div_eq_of_lt j'.isLt, Nat.add_zero]
  rw [← Nat.le_div_iff_mul_le hn, ← Nat.div_lt_iff_lt_mul hn, hrow]
  omega

/-! ### Chunks of a list -/

/-- A chunk is filled up with the elements of a row. -/
theorem toChunks_go_append {k : Nat} (row rest : List α) {chunk : Array α}
    (hsize : chunk.size + row.length ≤ k) (chunks : Array (List α)) :
    List.toChunks.go k (row ++ rest) chunk chunks =
      List.toChunks.go k rest (chunk ++ row.toArray) chunks := by
  induction row generalizing chunk with
  | nil => simp
  | cons a row ih =>
    rw [List.length_cons] at hsize
    have hroom : ¬ (chunk.size == k) = true := by
      rw [beq_iff_eq]
      omega
    rw [List.cons_append, List.toChunks.go, if_neg hroom, ih (by rw [Array.size_push]; omega)]
    simp

/-- After a full chunk, rows that are as long are the next chunks. -/
theorem toChunks_go_flatten {k : Nat} (hk : 0 < k) {rows : List (List α)}
    (hrows : ∀ row ∈ rows, row.length = k) {chunk : Array α} (hsize : chunk.size = k)
    (chunks : Array (List α)) : List.toChunks.go k rows.flatten chunk chunks =
      chunks.toList ++ chunk.toList :: rows := by
  induction rows generalizing chunk chunks with
  | nil => simp [List.toChunks.go]
  | cons row rows ih =>
    obtain ⟨hrow, htail⟩ := List.forall_mem_cons.1 hrows
    obtain ⟨a, row, rfl⟩ := List.exists_cons_of_length_pos (hrow ▸ hk)
    rw [List.length_cons] at hrow
    rw [List.flatten_cons, List.cons_append, List.toChunks.go, if_pos (beq_iff_eq.2 hsize),
      toChunks_go_append row _ (by simp; omega), ih htail (by simp; omega)]
    simp

/-- Rows of one length are the chunks of this length of the list that they make up. -/
theorem toChunks_flatten {k : Nat} (hk : 0 < k) {rows : List (List α)}
    (hrows : ∀ row ∈ rows, row.length = k) : rows.flatten.toChunks k = rows := by
  cases rows with
  | nil => rfl
  | cons row rows =>
    obtain ⟨hrow, htail⟩ := List.forall_mem_cons.1 hrows
    obtain ⟨a, row, rfl⟩ := List.exists_cons_of_length_pos (hrow ▸ hk)
    rw [List.length_cons] at hrow
    have hstart (xs : List α) : (a :: xs).toChunks k = List.toChunks.go k xs #[a] #[] := by
      rw [List.toChunks]
      exact hk.ne'
    rw [List.flatten_cons, List.cons_append, hstart, toChunks_go_append row _ (by simp; omega),
      toChunks_go_flatten hk htail (by simp; omega)]
    simp

namespace Grid

variable (g : Grid n α) (i j : Fin n)

theorem mem_entries_iff {c : α} : c ∈ g.entries ↔ ∃ i j, g.cell i j = c := by
  rw [entries, rows, List.mem_flatten]
  simp only [List.mem_map, Table.mem_toList_iff, cell]
  constructor
  · rintro ⟨_, ⟨_, ⟨i, rfl⟩, rfl⟩, hc⟩
    obtain ⟨j, hj⟩ := Table.mem_toList_iff.1 hc
    exact ⟨i, j, hj⟩
  · rintro ⟨i, j, hc⟩
    exact ⟨_, ⟨_, ⟨i, rfl⟩, rfl⟩, Table.mem_toList_iff.2 ⟨j, hc⟩⟩

/-- A grid is built exactly if each of its entries is. -/
theorem ofFnM_eq_ok_iff {ε : Type} {f : Fin n → Fin n → Except ε α} {g : Grid n α} :
    Grid.ofFnM f = .ok g ↔ ∀ i j, f i j = .ok (g.cell i j) := by
  rw [Grid.ofFnM, Table.ofFnM_eq_ok_iff]
  exact forall_congr' fun i ↦ Table.ofFnM_eq_ok_iff

theorem getElem?_rows : g.rows[i.val]? = some (Table.entry g i).toList := by
  simp [rows, Table.entry]

theorem map_length_rows : g.rows.map List.length = List.replicate n n := by
  rw [List.eq_replicate_iff]
  simp [rows]

variable {g} in
theorem length_of_mem_rows {row : List α} (hrow : row ∈ g.rows) : row.length = n := by
  have hlength := List.mem_map_of_mem (f := List.length) hrow
  rw [map_length_rows] at hlength
  exact List.eq_of_mem_replicate hlength

theorem length_entries : g.entries.length = n * n := by
  rw [entries, List.length_flatten, map_length_rows, List.sum_replicate_nat]

/-- Row `i` is a range of the entries. -/
theorem drop_take_entries :
    (g.entries.take ((i.val + 1) * n)).drop (i.val * n) = (Table.entry g i).toList := by
  have hsum {k : Nat} (hk : k ≤ n) : ((g.rows.map List.length).take k).sum = k * n := by
    rw [map_length_rows, List.take_replicate, Nat.min_eq_left hk, List.sum_replicate_nat]
  have hi : i.val < g.rows.length := g.length_rows.symm ▸ i.isLt
  have hslice := List.drop_take_succ_flatten_eq_getElem g.rows i.val hi
  rw [hsum i.isLt, hsum i.isLt.le] at hslice
  rw [entries, hslice]
  exact Option.some.inj ((List.getElem?_eq_getElem hi).symm.trans (g.getElem?_rows i))

theorem getElem?_toList_entry : (Table.entry g i).toList[j.val]? = some (g.cell i j) := by
  simp [cell, Table.entry]

/-- The entries are in row-major order. -/
theorem getElem?_entries : g.entries[i.val * n + j.val]? = some (g.cell i j) := by
  have hplace : i.val * n + j.val < (i.val + 1) * n := by
    rw [Nat.succ_mul]
    exact Nat.add_lt_add_left j.isLt _
  rw [← getElem?_toList_entry, ← drop_take_entries, List.getElem?_drop, List.getElem?_take,
    if_pos hplace]

/-- The entries are the list with each of them at its place. -/
theorem entries_eq_iff {g : Grid n α} {xs : List α} : g.entries = xs ↔
    xs.length = n * n ∧ ∀ i j : Fin n, xs[i.val * n + j.val]? = some (g.cell i j) := by
  constructor
  · rintro rfl
    exact ⟨g.length_entries, g.getElem?_entries⟩
  · rintro ⟨hlength, hxs⟩
    refine List.ext_getElem? fun k ↦ ?_
    rcases Nat.lt_or_ge k (n * n) with hk | hk
    · obtain ⟨i, hi, j, hj, rfl⟩ := exists_index_eq hk
      rw [g.getElem?_entries ⟨i, hi⟩ ⟨j, hj⟩, hxs ⟨i, hi⟩ ⟨j, hj⟩]
    · rw [List.getElem?_eq_none (g.length_entries.trans_le hk),
        List.getElem?_eq_none (hlength.trans_le hk)]

/-- A grid is determined by its entries. -/
theorem entries_injective : Function.Injective (entries : Grid n α → List α) := by
  refine fun g g' h ↦ ext_cell fun i j ↦ Option.some.inj ?_
  rw [← getElem?_entries, ← getElem?_entries, h]

/-- The rows are the chunks of the entries. -/
theorem rows_eq_toChunks : g.rows = g.entries.toChunks (max n 1) := by
  rcases Nat.eq_zero_or_pos n with hn | hn
  · have hrows : g.rows = [] := List.eq_nil_of_length_eq_zero (g.length_rows.trans hn)
    rw [entries, hrows]
    rfl
  · rw [Nat.max_eq_left hn, entries, toChunks_flatten hn fun _ ↦ length_of_mem_rows]

/-! ### The order of the cells -/

theorem nodup_cells (n : Nat) : (cells n).Nodup :=
  (List.nodup_finRange n).product (List.nodup_finRange n)

theorem length_cells (n : Nat) : (cells n).length = n * n :=
  (List.length_product (List.finRange n) (List.finRange n)).trans (by rw [List.length_finRange])

/-- The entries are listed in the order of the cells. -/
theorem entries_ofFn (f : Fin n → Fin n → α) :
    (ofFn f).entries = (cells n).map fun c ↦ f c.1 c.2 := by
  simp only [entries, rows, ofFn, cells, List.flatMap_def, List.map_flatten, List.map_map,
    Vector.toList_ofFn, List.ofFn_eq_map, Function.comp_def]

theorem getElem?_cells : (cells n)[i.val * n + j.val]? = some (i, j) := by
  have hcells : (ofFn fun i j : Fin n ↦ (i, j)).entries = cells n := by
    rw [entries_ofFn, List.map_id']
  rw [← hcells, getElem?_entries, cell_ofFn]

variable {i j} in
/-- A place is that of one position only. -/
theorem place_inj {i' j' : Fin n} :
    i.val * n + j.val = i'.val * n + j'.val ↔ i = i' ∧ j = j' := by
  constructor
  · intro h
    have hcells := getElem?_cells i j
    rw [h, getElem?_cells] at hcells
    obtain ⟨rfl, rfl⟩ := Prod.mk.inj (Option.some.inj hcells)
    exact ⟨rfl, rfl⟩
  · rintro ⟨rfl, rfl⟩
    rfl

section Effects

variable {m : Type → Type} [Monad m] [LawfulMonad m]

theorem ofFnM_eq_mapM {k : Nat} (f : Fin k → m α) : List.ofFnM f = (List.finRange k).mapM f := by
  induction k with
  | zero => simp
  | succ k ih => rw [List.ofFnM_succ, List.finRange_succ, List.mapM_cons, List.mapM_map, ih]; rfl

/-- Rows that are built one after the other are built by going through their cells. -/
theorem map_flatten_mapM (f : Fin n → Fin n → m α) (xs : List (Fin n)) :
    (fun rows : List (Table n α) ↦ (rows.map Vector.toList).flatten) <$>
      xs.mapM (fun i ↦ Vector.ofFnM (f i)) =
    (xs.flatMap fun i ↦ (List.finRange n).map fun j ↦ (i, j)).mapM fun c ↦ f c.1 c.2 := by
  induction xs with
  | nil => simp
  | cons i xs ih =>
    have hrow : ((List.finRange n).map fun j ↦ (i, j)).mapM (fun c ↦ f c.1 c.2) =
        Vector.toList <$> Vector.ofFnM (f i) := by
      rw [List.mapM_map, Vector.toList_ofFnM, ofFnM_eq_mapM]
      rfl
    rw [List.flatMap_cons, List.mapM_append, hrow, ← ih, List.mapM_cons]
    simp only [map_eq_pure_bind, bind_assoc, pure_bind, List.map_cons, List.flatten_cons]

/-- An effectful function is run on the cells in order to build a grid. -/
theorem map_entries_ofFnM (f : Fin n → Fin n → m α) :
    entries <$> ofFnM f = (cells n).mapM fun c ↦ f c.1 c.2 := by
  rw [cells, ← map_flatten_mapM, ← ofFnM_eq_mapM, ← Vector.toList_ofFnM, Functor.map_map]
  rfl

end Effects

end Grid

namespace CostMatrix

variable {m m' : CostMatrix α} {width : Nat}

/-! ### Positions, rows and entries -/

/-- Two matrices of one size with the same entries are equal. -/
theorem ext_get (hsize : m.size = m'.size)
    (h : ∀ i < m.size, ∀ j < m.size, ∃ c, m.get i j = .ok c ∧ m'.get i j = .ok c) : m = m' := by
  obtain ⟨n, grid⟩ := m
  obtain ⟨n', grid'⟩ := m'
  obtain rfl : n = n' := hsize
  congr 1
  refine Grid.ext_cell fun i j ↦ ?_
  obtain ⟨c, hc, hc'⟩ := h i i.isLt j j.isLt
  obtain ⟨_, _, rfl⟩ := get_eq_ok_iff.1 hc
  obtain ⟨_, _, hcell⟩ := get_eq_ok_iff.1 hc'
  exact hcell.symm

theorem get_cell (m : CostMatrix α) (i j : Fin m.size) :
    m.get i.val j.val = .ok (m.grid.cell i j) :=
  get_eq_ok_iff.2 ⟨i.isLt, j.isLt, rfl⟩

/-- The range of a row is in the matrix, and its bounds are words. -/
theorem checkRow_eq_ok (hlength : m.size * m.size < 0x8000000000000000) (i : Fin m.size) :
    m.checkRow i = .ok () := by
  have hstop : (i.val + 1) * m.size ≤ m.size * m.size := Nat.mul_le_mul_right _ i.isLt
  have hstart : i.val * m.size ≤ (i.val + 1) * m.size :=
    Nat.mul_le_mul_right _ (Nat.le_succ i.val)
  have hsize : m.size ≤ m.size * m.size := Nat.le_mul_self m.size
  have hi := i.isLt
  have hbound : 0x8000000000000000 < Word.bound := by decide
  have hmul : Word.mul i.val m.size = .ok (i.val * m.size) :=
    Word.mul_eq_ok_iff.2 ⟨by omega, rfl⟩
  have hadd : Word.add i.val 1 = .ok (i.val + 1) := Word.add_eq_ok_iff.2 ⟨by omega, rfl⟩
  have hmul' : Word.mul (i.val + 1) m.size = .ok ((i.val + 1) * m.size) :=
    Word.mul_eq_ok_iff.2 ⟨by omega, rfl⟩
  simp [checkRow, hmul, hadd, hmul', hstop, Checked.pure_eq_ok]

theorem row_eq_ok (hlength : m.size * m.size < 0x8000000000000000) (i : Fin m.size) :
    m.row i = .ok (Table.entry m.grid i).toList := by
  rw [row, checkRow_eq_ok hlength, Checked.ok_bind, dif_pos i.isLt, Checked.pure_eq_ok]

/-! ### Builders -/

theorem rows_injective (h : m.rows = m'.rows) : m = m' := by
  have hsize : m.size = m'.size := by
    have hlength := congrArg List.length h
    rwa [rows, rows, Grid.length_rows, Grid.length_rows] at hlength
  obtain ⟨n, grid⟩ := m
  obtain ⟨n', grid'⟩ := m'
  obtain rfl : n = n' := hsize
  have hgrid : grid.toList = grid'.toList :=
    List.map_injective_iff.2 (fun _ _ ↦ Vector.toList_inj.1) h
  rw [Vector.toList_inj.1 hgrid]

/-- A list of rows is made into the matrix that has these rows. -/
theorem ofRows_eq_ok_iff {rows : List (List α)} : ofRows rows = .ok m ↔ rows = m.rows := by
  have hbuilt {m : CostMatrix α} (h : ofRows rows = .ok m) : rows = m.rows := by
    rw [ofRows] at h
    split at h
    · cases h
    · obtain rfl := Except.ok.inj h
      refine List.ext_getElem (by simp [CostMatrix.rows]) fun i hi _ ↦ ?_
      simp [CostMatrix.rows, Grid.rows]
  refine ⟨hbuilt, fun h ↦ ?_⟩
  -- all rows of a matrix have as many entries as there are rows
  have hsquare : rows.find? (fun row ↦ row.length != rows.length) = none := by
    refine List.find?_eq_none.2 fun row hrow ↦ ?_
    rw [h] at hrow ⊢
    simp [CostMatrix.rows, Grid.length_of_mem_rows hrow]
  obtain ⟨m', hm'⟩ : ∃ m', ofRows rows = .ok m' := by
    rw [ofRows]
    split
    · rename_i hrow
      rw [hsquare] at hrow
      cases hrow
    · exact ⟨_, rfl⟩
  rw [hm', rows_injective ((hbuilt hm').symm.trans h)]

/-- There is room for a matrix exactly if its entries have as many bytes as a vector may have. -/
theorem reserve_eq_ok_iff {u : Unit} (hword : n * n < Word.bound) :
    reserve n width = .ok u ↔ n * n * width < 0x8000000000000000 := by
  rw [reserve, Word.mul_eq_ok_iff.2 ⟨hword, rfl⟩, Checked.ok_bind, Word.reserve_eq_ok_iff]

theorem reserve_eq_error (hword : n * n < Word.bound)
    (hroom : 0x8000000000000000 ≤ n * n * width) : reserve n width = .error .capacity := by
  rw [reserve, Word.mul_eq_ok_iff.2 ⟨hword, rfl⟩, Checked.ok_bind, Word.reserve,
    if_neg (Nat.not_lt.2 hroom)]

/-- A cost function is made into the matrix of its values, if there is room for them. -/
theorem ofFn_eq_ok_iff (hword : m.size * m.size < Word.bound) {cost : Fin n → Fin n → α} :
    ofFn n cost width = .ok m ↔ m.size * m.size * width < 0x8000000000000000 ∧ n = m.size ∧
      ∀ i j : Fin n, m.get i.val j.val = .ok (cost i j) := by
  rw [ofFn, Checked.bind_eq_ok_iff]
  constructor
  · intro ⟨_, hreserve, h⟩
    obtain rfl := Except.ok.inj h
    exact ⟨(reserve_eq_ok_iff hword).1 hreserve, rfl,
      fun i j ↦ get_eq_ok_iff.2 ⟨i.isLt, j.isLt, Grid.cell_ofFn cost i j⟩⟩
  · intro ⟨hroom, hn, hcost⟩
    subst hn
    refine ⟨(), (reserve_eq_ok_iff hword).2 hroom, congrArg Except.ok (ext_get rfl ?_)⟩
    exact fun i hi j hj ↦ ⟨cost ⟨i, hi⟩ ⟨j, hj⟩,
      get_eq_ok_iff.2 ⟨hi, hj, Grid.cell_ofFn cost _ _⟩, hcost ⟨i, hi⟩ ⟨j, hj⟩⟩

/-- A cost function that may fail is made into the matrix of its values, if it has them all and
there is room for them. -/
theorem ofFnM_eq_pure_iff {ε : Type} (hword : m.size * m.size < Word.bound)
    {cost : Fin n → Fin n → Except ε α} :
    ofFnM n cost width = (pure m : ExceptT Fault (Except ε) (CostMatrix α)) ↔
      m.size * m.size * width < 0x8000000000000000 ∧ n = m.size ∧
        ∀ i j : Fin n, ∃ c, cost i j = .ok c ∧ m.get i.val j.val = .ok c := by
  constructor
  · intro h
    rw [ofFnM] at h
    cases hreserve : reserve n width with
    | error fault =>
      rw [hreserve] at h
      cases h
    | ok _ =>
      rw [hreserve] at h
      cases hgrid : Grid.ofFnM cost with
      | error e =>
        rw [hgrid] at h
        cases h
      | ok grid =>
        rw [hgrid] at h
        obtain rfl : CostMatrix.mk n grid = m := Except.ok.inj (Except.ok.inj h)
        exact ⟨(reserve_eq_ok_iff hword).1 hreserve, rfl,
          fun i j ↦ ⟨grid.cell i j, Grid.ofFnM_eq_ok_iff.1 hgrid i j, get_cell ⟨n, grid⟩ i j⟩⟩
  · intro ⟨hroom, hn, hcost⟩
    subst hn
    have hgrid : Grid.ofFnM cost = .ok m.grid := by
      refine Grid.ofFnM_eq_ok_iff.2 fun i j ↦ ?_
      obtain ⟨c, hc, hget⟩ := hcost i j
      exact hc.trans (congrArg _ (Except.ok.inj (hget.symm.trans (m.get_cell i j))))
    have hreserve : reserve m.size width = .ok () := (reserve_eq_ok_iff hword).2 hroom
    rw [ofFnM, hreserve, hgrid]
    rfl

theorem entries_injective (hsize : m.size = m'.size) (h : m.entries = m'.entries) : m = m' := by
  obtain ⟨n, grid⟩ := m
  obtain ⟨n', grid'⟩ := m'
  obtain rfl : n = n' := hsize
  exact congrArg _ (Grid.entries_injective h)

/-- A matrix that is made of a flat list has its elements as entries. -/
theorem eq_of_ofEntries {data : Array α} (h : ofEntries n data = pure m) :
    n = m.size ∧ data.toList = m.entries := by
  rw [ofEntries, Reading.bind_eq_pure_iff] at h
  obtain ⟨_, -, h⟩ := h
  split at h
  · rename_i hsize
    obtain rfl := Reading.pure_eq_pure_iff.1 h
    refine ⟨rfl, (Grid.entries_eq_iff.2 ⟨hsize, fun i j ↦ ?_⟩).symm⟩
    rw [Grid.cell_ofFn, Array.getElem?_toList]
    exact Array.getElem?_eq_getElem _
  · exact absurd h Reading.throw_ne_pure

theorem exists_ofEntries (hword : n * n < Word.bound) {data : Array α}
    (hsize : data.size = n * n) : ∃ m, ofEntries n data = pure m := by
  rw [ofEntries, Word.mul_eq_ok_iff.2 ⟨hword, rfl⟩, dif_pos hsize]
  exact ⟨_, rfl⟩

/-- A flat list is made into the matrix that has these entries. -/
theorem ofEntries_eq_pure_iff (hword : m.size * m.size < Word.bound) {data : Array α} :
    ofEntries n data = pure m ↔ n = m.size ∧ data.toList = m.entries := by
  refine ⟨eq_of_ofEntries, fun ⟨hn, hdata⟩ ↦ ?_⟩
  subst hn
  have hsize : data.size = m.size * m.size := by
    rw [← Array.length_toList, hdata, entries, Grid.length_entries]
  obtain ⟨m', hm'⟩ := exists_ofEntries hword hsize
  obtain ⟨hn, hdata'⟩ := eq_of_ofEntries hm'
  rw [hm', entries_injective hn.symm (hdata'.symm.trans hdata)]

/-- A flat list of another length is refused. -/
theorem ofEntries_eq_throw (hword : n * n < Word.bound) {data : Array α}
    (hsize : data.size ≠ n * n) :
    ofEntries n data = throw ⟨n, if n = 0 then data.size else data.size / n⟩ := by
  rw [ofEntries, Word.mul_eq_ok_iff.2 ⟨hword, rfl⟩, dif_neg hsize]
  rfl

/-- Two equally long lists are made into the matrix of the costs of their pairs, if there is room
for them. -/
theorem ofPairs_eq_pure_iff {A B : Type} (hword : m.size * m.size < Word.bound) {workers : Array A}
    {tasks : Array B} {cost : Nat → Nat → A → B → α} : ofPairs workers tasks cost width = pure m ↔
      m.size * m.size * width < 0x8000000000000000 ∧
        workers.size = m.size ∧ tasks.size = m.size ∧ ∀ i j a b,
          workers[i]? = some a → tasks[j]? = some b → m.get i j = .ok (cost i j a b) := by
  rw [ofPairs]
  split
  · rename_i h
    rw [Reading.liftM_eq_pure_iff, ofFn_eq_ok_iff hword, ← h, ← and_assoc (a := _ = _), and_self]
    refine and_congr_right fun _ ↦ and_congr_right fun _ ↦
      ⟨fun hcost i j a b ha hb ↦ ?_, fun hcost i j ↦ ?_⟩
    · obtain ⟨hi, rfl⟩ := Array.getElem?_eq_some_iff.1 ha
      obtain ⟨hj, rfl⟩ := Array.getElem?_eq_some_iff.1 hb
      exact hcost ⟨i, hi⟩ ⟨j, h ▸ hj⟩
    · exact hcost i j _ _ (Array.getElem?_eq_getElem i.isLt)
        (Array.getElem?_eq_getElem (Nat.lt_of_lt_of_eq j.isLt h))
  · rename_i h
    exact iff_of_false Reading.throw_ne_pure fun ⟨_, hworkers, htasks, _⟩ ↦
      h (hworkers.trans htasks.symm)

/-! ### All views of a matrix -/

/-- All views of a matrix show the same entries in row-major order, and each builder makes exactly
this matrix out of what the views show. A builder from costs of some width makes it if there is room
for so many of them, as there is for a matrix that is held in a vector of such costs. -/
structure ViewsAgree (m : CostMatrix α) : Prop where
  /-- There are as many entries as positions. -/
  length_entries : m.entries.length = m.size * m.size
  /-- There is a row for every number below the size. -/
  length_rows : m.rows.length = m.size
  /-- Row `i` is a range of the entries, and the rows are listed in order. -/
  row : ∀ i < m.size, ∃ row, m.row i = .ok row ∧ m.rows[i]? = some row ∧ row.length = m.size ∧
    row = (m.entries.take ((i + 1) * m.size)).drop (i * m.size)
  /-- The rows are the chunks of the entries; without entries there is none. -/
  rows_eq_toChunks : m.rows = m.entries.toChunks (max m.size 1)
  /-- The entry at a position is found in its row and among all entries. -/
  get : ∀ i < m.size, ∀ j < m.size, ∃ c row, m.get i j = .ok c ∧ m.row i = .ok row ∧
    row[j]? = some c ∧ m.entries[i * m.size + j]? = some c
  ofRows_eq_ok_iff : ∀ rows, ofRows rows = .ok m ↔ rows = m.rows
  ofEntries_eq_pure_iff : ∀ n data, ofEntries n data = pure m ↔
    n = m.size ∧ data.toList = m.entries
  ofFn_eq_ok_iff : ∀ n (cost : Fin n → Fin n → α) width, ofFn n cost width = .ok m ↔
    m.size * m.size * width < 0x8000000000000000 ∧ n = m.size ∧
      ∀ i j : Fin n, m.get i.val j.val = .ok (cost i j)
  ofFnM_eq_pure_iff : ∀ (ε : Type) n (cost : Fin n → Fin n → Except ε α) width,
    ofFnM n cost width = (pure m : ExceptT Fault (Except ε) (CostMatrix α)) ↔
      m.size * m.size * width < 0x8000000000000000 ∧ n = m.size ∧
        ∀ i j : Fin n, ∃ c, cost i j = .ok c ∧ m.get i.val j.val = .ok c
  ofPairs_eq_pure_iff : ∀ (A B : Type) (workers : Array A) (tasks : Array B)
    (cost : Nat → Nat → A → B → α) width, ofPairs workers tasks cost width = pure m ↔
      m.size * m.size * width < 0x8000000000000000 ∧
        workers.size = m.size ∧ tasks.size = m.size ∧ ∀ i j a b,
          workers[i]? = some a → tasks[j]? = some b → m.get i j = .ok (cost i j a b)

theorem viewsAgree (hlength : m.size * m.size < 0x8000000000000000) : m.ViewsAgree where
  length_entries := m.grid.length_entries
  length_rows := m.grid.length_rows
  row i hi := ⟨_, row_eq_ok hlength ⟨i, hi⟩, m.grid.getElem?_rows ⟨i, hi⟩, Vector.length_toList,
    (m.grid.drop_take_entries ⟨i, hi⟩).symm⟩
  rows_eq_toChunks := m.grid.rows_eq_toChunks
  get i hi j hj := ⟨_, _, m.get_cell ⟨i, hi⟩ ⟨j, hj⟩, row_eq_ok hlength ⟨i, hi⟩,
    m.grid.getElem?_toList_entry ⟨i, hi⟩ ⟨j, hj⟩, m.grid.getElem?_entries ⟨i, hi⟩ ⟨j, hj⟩⟩
  ofRows_eq_ok_iff _ := CostMatrix.ofRows_eq_ok_iff
  ofEntries_eq_pure_iff _ _ := CostMatrix.ofEntries_eq_pure_iff (hlength.trans (by decide))
  ofFn_eq_ok_iff _ _ _ := CostMatrix.ofFn_eq_ok_iff (hlength.trans (by decide))
  ofFnM_eq_pure_iff _ _ _ _ := CostMatrix.ofFnM_eq_pure_iff (hlength.trans (by decide))
  ofPairs_eq_pure_iff _ _ _ _ _ _ := CostMatrix.ofPairs_eq_pure_iff (hlength.trans (by decide))

end CostMatrix

end LinearAssignment
