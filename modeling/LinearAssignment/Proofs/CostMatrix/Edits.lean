import LinearAssignment.Proofs.CostMatrix.Views

/-!
# Changes of a cost matrix

A matrix is changed by assigning a cost to a position and by lowering the costs of a row. Such an
`Edit` keeps the size, and what becomes of the cost at a position depends on that cost alone
(`Edit.costAt`). An edit goes through exactly if its position or row is in the matrix and its costs
are of the type (`Edit.apply_eq_ok_iff`), and after a list of edits each cost is what the edits make
of it one after the other (`foldlM_apply_eq_ok`). As all views of a matrix agree, the change is the
same in each of them. In the flat list of the entries an assignment replaces the entry at one place,
and lowering a row changes those at the places of this row (`set_eq_ok_iff_entries`,
`lowerRow_eq_ok_iff_entries`).
-/

namespace LinearAssignment.CostMatrix

/-- A change of a matrix. -/
inductive Edit
  /-- Assigns a cost to the position in row `i` and column `j`. -/
  | set (i j : Nat) (c : Int)
  /-- Lowers all costs of row `i`. -/
  | lowerRow (i : Nat) (c : Int)
deriving DecidableEq, Repr

namespace Edit

/-- The row in which costs change. -/
def row : Edit → Nat
  | set i _ _ => i
  | lowerRow i _ => i

/-- Makes the change. -/
def apply (W : CostType) (m : CostMatrix Int) : Edit → Checked (CostMatrix Int)
  | set i j c => m.set i j c
  | lowerRow i c => m.lowerRow W i c

/-- What becomes of the cost at a position. -/
def costAt (i j : Nat) (old : Int) : Edit → Int
  | set i' j' c => if i = i' ∧ j = j' then c else old
  | lowerRow i' c => if i = i' then old - c else old

/-- The change stays in the matrix and leads to costs of the type. -/
def Applies (W : CostType) (m : CostMatrix Int) : Edit → Prop
  | set i j _ => i < m.size ∧ j < m.size
  | lowerRow i c => i < m.size ∧ ∀ j old, m.get i j = .ok old → W.Fits (old - c)

end Edit

/-- The matrix after some changes. -/
def edited (m : CostMatrix Int) (edits : List Edit) : CostMatrix Int where
  size := m.size
  grid := Grid.ofFn fun i j ↦ edits.foldl (Edit.costAt i j) (m.grid.cell i j)

variable {W : CostType} {m m' : CostMatrix Int} {i j : Nat} {c : Int}

/-- The matrix with other entries is the one after some changes. -/
theorem mk_eq_edited {grid : Grid m.size Int} {edits : List Edit}
    (h : ∀ i j, grid.cell i j = edits.foldl (Edit.costAt i j) (m.grid.cell i j)) :
    ⟨m.size, grid⟩ = m.edited edits :=
  congrArg (CostMatrix.mk m.size) (Grid.ext_cell fun i j ↦ by rw [h, Grid.cell_ofFn])

theorem edited_nil (m : CostMatrix Int) : m.edited [] = m :=
  (mk_eq_edited fun _ _ ↦ rfl).symm

theorem edited_cons (m : CostMatrix Int) (edit : Edit) (edits : List Edit) :
    m.edited (edit :: edits) = (m.edited [edit]).edited edits :=
  (mk_eq_edited fun i j ↦ by simp [edited]).symm

theorem get_edited (h : m.get i j = .ok c) (edits : List Edit) :
    (m.edited edits).get i j = .ok (edits.foldl (Edit.costAt i j) c) := by
  obtain ⟨hi, hj, rfl⟩ := get_eq_ok_iff.1 h
  exact get_eq_ok_iff.2 ⟨hi, hj, Grid.cell_ofFn _ _ _⟩

/-! ### One change -/

theorem set_eq_ok_iff :
    m.set i j c = .ok m' ↔ (i < m.size ∧ j < m.size) ∧ m' = m.edited [.set i j c] := by
  rw [set]
  split
  · rename_i h
    have hput : ⟨m.size, m.grid.put ⟨i, h.1⟩ ⟨j, h.2⟩ c⟩ = m.edited [.set i j c] :=
      mk_eq_edited fun k l ↦ by
        rw [Grid.cell_put]
        simp [Edit.costAt, Fin.ext_iff, eq_comm]
    rw [and_iff_right h, Except.ok.injEq, hput]
    exact eq_comm
  · rename_i h
    exact iff_of_false nofun fun hset ↦ h hset.1

theorem lowerRow_eq_ok_iff (hlength : m.size * m.size < 0x8000000000000000) (hi : i < m.size) :
    m.lowerRow W i c = .ok m' ↔
      (∀ j old, m.get i j = .ok old → W.Fits (old - c)) ∧ m' = m.edited [.lowerRow i c] := by
  have hput {lowered : Table m.size Int}
      (h : ∀ j, m.grid.cell ⟨i, hi⟩ j - c = lowered.entry j) :
      ⟨m.size, Table.put m.grid ⟨i, hi⟩ lowered⟩ = m.edited [.lowerRow i c] :=
    mk_eq_edited fun k l ↦ by
      rw [Grid.cell, Table.entry_put]
      by_cases hk : k = ⟨i, hi⟩
      · subst hk
        rw [if_pos rfl, ← h]
        exact (if_pos rfl).symm
      · rw [if_neg (Ne.symm hk)]
        exact (if_neg (mt Fin.ext hk)).symm
  rw [lowerRow, checkRow_eq_ok hlength ⟨i, hi⟩, Checked.ok_bind, dif_pos hi,
    Checked.bind_eq_ok_iff]
  simp only [Table.ofFnM_eq_ok_iff, CostType.sub, CostType.check_eq_ok_iff]
  constructor
  · rintro ⟨lowered, hlowered, h⟩
    obtain rfl := Except.ok.inj h
    refine ⟨fun j old hget ↦ ?_, hput fun j ↦ (hlowered j).2⟩
    obtain ⟨_, hj, rfl⟩ := get_eq_ok_iff.1 hget
    exact (hlowered ⟨j, hj⟩).1
  · rintro ⟨hfits, h⟩
    have hlowered (j : Fin m.size) : m.grid.cell ⟨i, hi⟩ j - c =
        Table.entry (Vector.ofFn fun j ↦ m.grid.cell ⟨i, hi⟩ j - c) j := by
      rw [Table.entry_ofFn]
    exact ⟨_, fun j ↦ ⟨hfits j _ (m.get_cell ⟨i, hi⟩ j), hlowered j⟩,
      congrArg Except.ok ((hput hlowered).trans h.symm)⟩

/-- When an edit goes through, and what the matrix is afterwards. -/
theorem Edit.apply_eq_ok_iff (hlength : m.size * m.size < 0x8000000000000000) {edit : Edit}
    (hrow : edit.row < m.size) :
    edit.apply W m = .ok m' ↔ edit.Applies W m ∧ m' = m.edited [edit] := by
  cases edit with
  | set i j c => exact set_eq_ok_iff
  | lowerRow i c =>
    have hi : i < m.size := hrow
    rw [Applies, and_iff_right hi]
    exact lowerRow_eq_ok_iff hlength hi

/-! ### One change, in the flat list -/

/-- What the edits make of the costs is known from the list with each of them at its place. -/
theorem eq_edited_iff_entries {xs : List Int} (hxs : xs.length = m.size * m.size)
    {edits : List Edit} (h : ∀ i j : Fin m.size, xs[i.val * m.size + j.val]? =
      some (edits.foldl (Edit.costAt i j) (m.grid.cell i j))) :
    m' = m.edited edits ↔ m'.size = m.size ∧ m'.entries = xs := by
  have hcell (i j : Fin m.size) : (m.edited edits).grid.cell i j =
      edits.foldl (Edit.costAt i j) (m.grid.cell i j) := Grid.cell_ofFn _ i j
  have hentries : (m.edited edits).entries = xs :=
    Grid.entries_eq_iff.2 ⟨hxs, fun i j ↦ (h i j).trans (congrArg some (hcell i j).symm)⟩
  constructor
  · rintro rfl
    exact ⟨rfl, hentries⟩
  · rintro ⟨hsize, h'⟩
    exact entries_injective hsize (h'.trans hentries.symm)

/-- Assigning a cost replaces the entry at one place. -/
theorem set_eq_ok_iff_entries : m.set i j c = .ok m' ↔ (i < m.size ∧ j < m.size) ∧
    m'.size = m.size ∧ m'.entries = m.entries.set (i * m.size + j) c := by
  rw [set_eq_ok_iff]
  refine and_congr_right fun ⟨hi, hj⟩ ↦ eq_edited_iff_entries ?_ fun i' j' ↦ ?_
  · rw [List.length_set]
    exact m.grid.length_entries
  · have hplace : i * m.size + j = i'.val * m.size + j'.val ↔ i'.val = i ∧ j'.val = j :=
      (Grid.place_inj (i := ⟨i, hi⟩) (j := ⟨j, hj⟩)).trans (by simp [Fin.ext_iff, eq_comm])
    rw [List.getElem?_set', entries, Grid.getElem?_entries, List.foldl_cons, List.foldl_nil,
      Edit.costAt]
    simp only [hplace]
    split <;> rfl

/-- Lowering a row changes the entries at its places. -/
theorem lowerRow_eq_ok_iff_entries (hlength : m.size * m.size < 0x8000000000000000)
    (hi : i < m.size) : m.lowerRow W i c = .ok m' ↔
      (∀ j old, m.get i j = .ok old → W.Fits (old - c)) ∧ m'.size = m.size ∧
      m'.entries = m.entries.mapIdx fun k old ↦
        if i * m.size ≤ k ∧ k < (i + 1) * m.size then old - c else old := by
  rw [lowerRow_eq_ok_iff hlength hi]
  refine and_congr_right fun _ ↦ eq_edited_iff_entries ?_ fun i' j' ↦ ?_
  · rw [List.length_mapIdx]
    exact m.grid.length_entries
  · rw [List.getElem?_mapIdx, entries, Grid.getElem?_entries, Option.map_some]
    simp only [place_mem_row_iff, List.foldl_cons, List.foldl_nil, Edit.costAt]

/-! ### Several changes -/

/-- After some edits, each cost is what the edits make of it one after the other. -/
theorem foldlM_apply_eq_ok (hlength : m.size * m.size < 0x8000000000000000) {edits : List Edit}
    (hrows : ∀ edit ∈ edits, edit.row < m.size) (h : edits.foldlM (Edit.apply W) m = .ok m') :
    m' = m.edited edits := by
  induction edits generalizing m with
  | nil =>
    obtain rfl := Except.ok.inj h
    exact (edited_nil m).symm
  | cons edit edits ih =>
    obtain ⟨hrow, hrest⟩ := List.forall_mem_cons.1 hrows
    rw [List.foldlM_cons, Checked.bind_eq_ok_iff] at h
    obtain ⟨m₁, hfirst, h⟩ := h
    obtain ⟨-, rfl⟩ := (Edit.apply_eq_ok_iff hlength hrow).1 hfirst
    rw [edited_cons]
    -- the size has not changed
    exact ih hlength hrest h

/-- **All views of a matrix agree, however it is changed.** Every matrix whose number of entries is
in range shows the same entries in all its views, and is built again from each of them. After edits
this is still so, and in all views the cost at a position is the former one with the effects of the
edits on this position: other positions do not matter, and there are as many rows as before. -/
theorem viewsAgree_and_foldlM_apply (W : CostType) :
    (∀ (α : Type) (m : CostMatrix α), m.size * m.size < 0x8000000000000000 → m.ViewsAgree) ∧
    ∀ (m m' : CostMatrix Int) (edits : List Edit), m.size * m.size < 0x8000000000000000 →
      (∀ edit ∈ edits, edit.row < m.size) → edits.foldlM (Edit.apply W) m = .ok m' →
      m'.size = m.size ∧ m'.ViewsAgree ∧
        ∀ i j c, m.get i j = .ok c → m'.get i j = .ok (edits.foldl (Edit.costAt i j) c) := by
  refine ⟨fun α m ↦ viewsAgree, fun m m' edits hlength hrows h ↦ ?_⟩
  obtain rfl := foldlM_apply_eq_ok hlength hrows h
  exact ⟨rfl, viewsAgree hlength, fun i j c hget ↦ get_edited hget edits⟩

/-- A matrix of two rows. -/
def twoRows : CostMatrix Int where
  size := 2
  grid := #v[#v[4, 2], #v[3, 7]]

theorem viewsAgree_and_foldlM_apply_twoRows :
    twoRows.ViewsAgree ∧ ∃ m, [.lowerRow 0 2, .set 1 0 9, .lowerRow 1 7].foldlM
        (Edit.apply (.unsigned 8)) twoRows = .ok m ∧
      m.ViewsAgree ∧ m.get 0 1 = .ok 0 ∧ m.get 1 0 = .ok 2 := by
  obtain ⟨hviews, hedits⟩ := viewsAgree_and_foldlM_apply (.unsigned 8)
  have hlength : twoRows.size * twoRows.size < 0x8000000000000000 := by decide
  have happly : [.lowerRow 0 2, .set 1 0 9, .lowerRow 1 7].foldlM (Edit.apply (.unsigned 8))
      twoRows = .ok ⟨2, #v[#v[2, 0], #v[2, 0]]⟩ := by decide +kernel
  obtain ⟨-, hagree, hget⟩ := hedits twoRows _ _ hlength (by decide) happly
  exact ⟨hviews Int twoRows hlength, _, happly, hagree, hget 0 1 2 rfl, hget 1 0 3 rfl⟩

end LinearAssignment.CostMatrix
