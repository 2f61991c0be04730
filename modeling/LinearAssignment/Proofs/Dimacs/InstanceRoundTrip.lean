import LinearAssignment.Proofs.Dimacs.CompleteInstance
import LinearAssignment.Proofs.Reduction

/-!
# Instances that are read back

The file of a matrix spells the items `matrixItems`: the first half of the nodes are the workers,
and each has an arc to each node of the second half. These items are complete
(`complete_matrixItems`), and the matrix is theirs (`isMatrixOf_matrixItems`), so a file is read as
the matrix that was written if each of its costs is a field that is read back
(`readInstance_of_fields`). Integers always are. Tokens are if they are fields at all, and only
then, because whatever is read is a field of some line.
-/

namespace LinearAssignment

/-- A sink that is never full gets all lines. -/
theorem Text.deliver_none (before : String) (lines : List String) :
    Text.deliver none before (lines.map pure) = pure (before ++ String.join lines) := by
  induction lines generalizing before with
  | nil => simp [Text.deliver]
  | cons line lines ih =>
    have hstep : Text.deliver none before ((line :: lines).map pure) =
        Text.deliver none (before ++ line) (lines.map pure) := rfl
    rw [hstep, ih, String.join_cons, String.append_assoc]

namespace Dimacs

variable {α : Type} {spelling : Spelling α} {m : CostMatrix α} {n : Nat}

/-! ### Writing -/

/-- The fields of the line of an item. -/
def Item.spell (spelling : Spelling α) : Item α → List String
  | worker node => ["n", toString node]
  | arc source sink cost => ["a", toString source, toString sink, spelling.write cost]

/-- The items of a matrix: the first half of the nodes are the workers, and each has an arc to each
node of the second half. -/
def matrixItems (m : CostMatrix α) : List (Item α) :=
  ((List.range m.size).map fun i ↦ .worker (i + 1)) ++
    (Grid.cells m.size).map fun (i, j) ↦ .arc (i + 1) (m.size + j + 1) (m.grid.cell i j)

/-- The fields of the lines of the file of a matrix. -/
def matrixFields (spelling : Spelling α) (m : CostMatrix α) : List (List String) :=
  ["p", "asn", toString (2 * m.size), toString (m.size * m.size)] ::
    (matrixItems m).map (Item.spell spelling)

theorem zipIdx_map_finRange {β : Type} (f : Fin n → β) :
    ((List.finRange n).map f).zipIdx = (List.finRange n).map fun i ↦ (f i, i.val) := by
  refine List.ext_getElem (by simp) fun k _ _ ↦ ?_
  simp

/-- The lines of the file of a matrix are its fields with blanks between them. -/
theorem instanceLines_eq (spelling : Spelling α) (m : CostMatrix α) :
    instanceLines spelling m =
      (matrixFields spelling m).map fun fields ↦ " ".intercalate fields ++ "\n" := by
  have hrows : m.rows.zipIdx =
      (List.finRange m.size).map fun i ↦ ((List.finRange m.size).map (m.grid.cell i), i.val) := by
    rw [CostMatrix.rows, Grid.rows, Table.toList_eq_map_entry, List.map_map,
      ← zipIdx_map_finRange]
    congr 2
    funext i
    exact Table.toList_eq_map_entry _
  -- the literals of the writer are fields with their blanks
  have hp : "p asn " = "p" ++ " " ++ "asn" ++ " " := rfl
  have hn : "n " = "n" ++ " " := rfl
  have ha : "a " = "a" ++ " " := rfl
  simp only [instanceLines, hrows, List.flatMap_map, zipIdx_map_finRange, List.map_map,
    matrixFields, matrixItems, Grid.cells, List.map_cons, List.map_append, List.map_flatMap,
    Function.comp_def, Item.spell, String.intercalate_cons_cons, String.intercalate_singleton,
    String.append_assoc, hp, hn, ha, List.cons_append, List.nil_append]

/-! ### The items of a matrix -/

theorem mem_matrixItems_iff {item : Item α} : item ∈ matrixItems m ↔
    (∃ i : Fin m.size, item = .worker (i + 1)) ∨
      ∃ i j : Fin m.size, item = .arc (i + 1) (m.size + j + 1) (m.grid.cell i j) := by
  simp only [matrixItems, List.mem_append, List.mem_map, List.mem_range, Prod.exists,
    Fin.exists_iff, Grid.mem_cells, true_and, eq_comm, exists_prop]

@[simp]
theorem workers_matrixItems (m : CostMatrix α) :
    Item.workers (matrixItems m) = (List.range m.size).map (· + 1) := by
  simp [Item.workers, matrixItems, List.filterMap_append, List.filterMap_map, Function.comp_def,
    Item.worker?]

theorem ends_matrixItems (m : CostMatrix α) : Item.ends (matrixItems m) =
    (Grid.cells m.size).map fun (i, j) ↦ (i.val + 1, m.size + j.val + 1) := by
  simp [Item.ends, Item.arcs, matrixItems, List.filterMap_append, List.filterMap_map,
    Function.comp_def, Item.arc?]

theorem mem_workers_matrixItems_iff {u : Nat} :
    u ∈ Item.workers (matrixItems m) ↔ 0 < u ∧ u ≤ m.size := by
  rw [workers_matrixItems, List.mem_map]
  constructor
  · rintro ⟨i, hi, rfl⟩
    exact ⟨Nat.succ_pos i, List.mem_range.1 hi⟩
  · rintro ⟨hpos, hle⟩
    exact ⟨u - 1, List.mem_range.2 (by omega), by omega⟩

theorem isTask_matrixItems_iff {v : Nat} :
    IsTask m.size (Item.workers (matrixItems m)) v ↔ m.size < v ∧ v ≤ 2 * m.size := by
  rw [IsTask, mem_workers_matrixItems_iff]
  omega

/-- The `i`-th number of an interval, counting from zero. -/
theorem nth_interval {p : Nat → Prop} {low high i : Nat} (hp : ∀ v, p v ↔ low < v ∧ v ≤ high)
    (hi : low + i < high) : Nat.nth p i = low + i + 1 := by
  classical
  have hcount : Nat.count p (low + i + 1) = i := by
    induction i with
    | zero => exact Nat.count_of_forall_not fun v hv hmem ↦ by have := (hp v).1 hmem; omega
    | succ i ih =>
      rw [Nat.count_succ, ← Nat.add_assoc, ih (by omega), if_pos ((hp _).2 (by omega))]
  conv_lhs => rw [← hcount]
  exact Nat.nth_count ((hp _).2 (by omega))

/-- The items of a matrix are complete. -/
theorem complete_matrixItems (m : CostMatrix α) : Complete m.size (matrixItems m) where
  sides :=
    { length_eq := by simp
      nodup := by
        rw [workers_matrixItems]
        exact List.nodup_range.map (Nat.succ_injective)
      mem_nodes := fun u hu ↦ by
        have := mem_workers_matrixItems_iff.1 hu
        omega }
  length_ends := by rw [ends_matrixItems, List.length_map, Grid.length_cells]
  count_ends u hu v hv := by
    obtain ⟨hu₀, hu₁⟩ := mem_workers_matrixItems_iff.1 hu
    obtain ⟨hv₀, hv₁⟩ := isTask_matrixItems_iff.1 hv
    rw [ends_matrixItems]
    refine List.count_eq_one_of_mem ((Grid.nodup_cells m.size).map ?_) (List.mem_map.2
      ⟨(⟨u - 1, by omega⟩, ⟨v - m.size - 1, by omega⟩), Grid.mem_cells _ _, ?_⟩)
    · rintro ⟨i, j⟩ ⟨i', j'⟩ heq
      simp only [Prod.mk.injEq] at heq ⊢
      exact ⟨Fin.ext (by omega), Fin.ext (by omega)⟩
    · simp only [Prod.mk.injEq]
      omega

/-- A matrix is the one of its items. -/
theorem isMatrixOf_matrixItems (m : CostMatrix α) : IsMatrixOf m.size (matrixItems m) m where
  size_eq := rfl
  get_eq i hi j hj := by
    have hworker : Nat.nth (· ∈ Item.workers (matrixItems m)) i = 0 + i + 1 :=
      nth_interval (fun _ ↦ mem_workers_matrixItems_iff) (by omega)
    have htask : Nat.nth (IsTask m.size (Item.workers (matrixItems m))) j = m.size + j + 1 :=
      nth_interval (fun _ ↦ isTask_matrixItems_iff) (by omega)
    refine ⟨m.grid.cell ⟨i, hi⟩ ⟨j, hj⟩, ?_, CostMatrix.get_eq_ok_iff.2 ⟨hi, hj, rfl⟩⟩
    rw [hworker, htask, Nat.zero_add]
    exact List.mem_append_right _ (List.mem_map.2 ⟨(⟨i, hi⟩, ⟨j, hj⟩), Grid.mem_cells _ _, rfl⟩)

/-! ### The file of a matrix -/

theorem writeInstance_none (spelling : Spelling α) (m : CostMatrix α) :
    writeInstance spelling none m = pure (String.join (instanceLines spelling m)) := by
  rw [writeInstance, Text.deliver_none, String.empty_append]

section Reading

variable (hword : m.size * m.size < 0x8000000000000000)
  (hfields : ∀ i j, Text.IsField (spelling.write (m.grid.cell i j)))

include hword in
theorem two_mul_size_lt : 2 * m.size < Word.bound := by
  have hsize : m.size < 0x100000000 := by
    by_contra hge
    have := Nat.mul_le_mul (Nat.not_lt.1 hge) (Nat.not_lt.1 hge)
    omega
  exact Nat.lt_trans (Nat.mul_lt_mul_of_pos_left hsize Nat.two_pos) (by decide)

include hfields in
/-- All fields of the file of a matrix are fields. -/
theorem isField_of_mem_matrixFields {row : List String} (hrow : row ∈ matrixFields spelling m)
    {field : String} (hfield : field ∈ row) : Text.IsField field := by
  have hnumber := Numeral.isField_toString
  rcases List.mem_cons.1 hrow with rfl | hrow
  · simp only [List.mem_cons, List.not_mem_nil, or_false] at hfield
    rcases hfield with rfl | rfl | rfl | rfl
    · exact (by decide : Text.IsField "p")
    · exact (by decide : Text.IsField "asn")
    · exact hnumber _
    · exact hnumber _
  · obtain ⟨item, hitem, rfl⟩ := List.mem_map.1 hrow
    rcases mem_matrixItems_iff.1 hitem with ⟨i, rfl⟩ | ⟨i, j, rfl⟩
    · simp only [Item.spell, List.mem_cons, List.not_mem_nil, or_false] at hfield
      rcases hfield with rfl | rfl
      · exact (by decide : Text.IsField "n")
      · exact hnumber _
    · simp only [Item.spell, List.mem_cons, List.not_mem_nil, or_false] at hfield
      rcases hfield with rfl | rfl | rfl | rfl
      · exact (by decide : Text.IsField "a")
      · exact hnumber _
      · exact hnumber _
      · exact hfields i j

include hfields in
/-- The data lines of the file of a matrix are its fields. -/
theorem dataLines_instanceLines :
    dataLines (String.join (instanceLines spelling m)) = matrixFields spelling m := by
  rw [instanceLines_eq, dataLines_join fun _ hrow _ ↦ isField_of_mem_matrixFields hfields hrow,
    List.filter_eq_self]
  intro row hrow
  rcases List.mem_cons.1 hrow with rfl | hrow
  · rfl
  · obtain ⟨item, hitem, rfl⟩ := List.mem_map.1 hrow
    rcases mem_matrixItems_iff.1 hitem with ⟨i, rfl⟩ | ⟨i, j, rfl⟩ <;> rfl

include hword hfields in
/-- The file of a matrix is read as the matrix if each cost is a field that is read back. -/
theorem readInstance_of_fields
    (hread : ∀ i j, spelling.read (spelling.write (m.grid.cell i j)) = .ok (m.grid.cell i j)) :
    readInstance spelling (.ofString (String.join (instanceLines spelling m))) = pure m := by
  have hnodes := two_mul_size_lt hword
  refine readInstance_eq_pure_iff.2 ⟨m.size, matrixItems m, ⟨⟨_, _,
    dataLines_instanceLines hfields, ⟨_, _, rfl, ?_, ?_⟩, ?_⟩, complete_matrixItems m⟩,
    isMatrixOf_matrixItems m⟩
  · exact Spelling.read_write_word hnodes
  · exact Spelling.read_write_word (Nat.lt_trans hword (by decide))
  · rw [List.forall₂_map_left_iff, List.forall₂_same]
    intro item hitem
    have hnode {u : Nat} (hu : u ≤ 2 * m.size) := Spelling.read_write_word (hu.trans_lt hnodes)
    rcases mem_matrixItems_iff.1 hitem with ⟨i, rfl⟩ | ⟨i, j, rfl⟩
    · exact ⟨_, rfl, hnode (by omega)⟩
    · exact ⟨_, _, _, rfl, hnode (by omega), hnode (by omega), hread i j⟩

end Reading

/-! ### Tokens -/

/-- The fields of data lines are fields. -/
theorem isField_of_mem_dataLines {text : String} {row : List String} (hrow : row ∈ dataLines text)
    {field : String} (hfield : field ∈ row) : Text.IsField field := by
  obtain ⟨line, -, rfl⟩ := List.mem_map.1 (List.mem_of_mem_filter hrow)
  exact Text.isField_of_mem_fields hfield

/-- Tokens that have been read are fields. -/
theorem isField_of_readInstance_token {text : String} {m : CostMatrix String}
    (h : readInstance .token (.ofString text) = pure m) (i j : Fin m.size) :
    Text.IsField (m.grid.cell i j) := by
  obtain ⟨n, items, ⟨⟨head, rest, hlines, -, hspells⟩, -⟩, hmatrix⟩ := readInstance_eq_pure_iff.1 h
  obtain rfl := hmatrix.size_eq
  obtain ⟨c, hitem, hget⟩ := hmatrix.get_eq i i.isLt j j.isLt
  obtain ⟨_, _, rfl⟩ := CostMatrix.get_eq_ok_iff.1 hget
  obtain ⟨row, hrow, u, v, token, rfl, -, -, hread⟩ := exists_of_forall₂_of_mem hspells hitem
  obtain rfl := Except.ok.inj hread
  exact isField_of_mem_dataLines (hlines ▸ List.mem_cons_of_mem head hrow) (by simp)

/-- **Round trip of instances.** Every matrix of a cost type is read back from its file. A matrix of
tokens is read back exactly if no token is empty or has a blank in it. -/
theorem readInstance_writeInstance :
    (∀ (W : CostType) (m : CostMatrix Int), m.Over W → ∃ text,
      writeInstance (.integer W) none m = pure text ∧
      readInstance (.integer W) (.ofString text) = pure m) ∧
    ∀ m : CostMatrix String, m.size * m.size < 0x8000000000000000 → ∃ text,
      writeInstance .token none m = pure text ∧
      (readInstance .token (.ofString text) = pure m ↔
        ∀ i j, Text.IsField (m.grid.cell i j)) := by
  constructor
  · intro W m hm
    exact ⟨_, writeInstance_none _ m, readInstance_of_fields hm.length_lt
      (fun i j ↦ Numeral.isField_write _) fun i j ↦ Numeral.read_write (hm.fits i j)⟩
  · intro m hlength
    exact ⟨_, writeInstance_none _ m, isField_of_readInstance_token,
      fun hfields ↦ readInstance_of_fields hlength hfields fun _ _ ↦ rfl⟩

/-- A cost with a blank in it. -/
def spacedToken : CostMatrix String where
  size := 1
  grid := #v[#v["7 8"]]

theorem readInstance_writeInstance_nearTop :
    CostMatrix.nearTop.Over (.signed 7) ∧
      (∃ text, writeInstance (.integer (.signed 7)) none CostMatrix.nearTop = pure text ∧
        readInstance (.integer (.signed 7)) (.ofString text) = pure CostMatrix.nearTop) ∧
      spacedToken.size * spacedToken.size < 0x8000000000000000 ∧
      ∃ text, writeInstance .token none spacedToken = pure text ∧
        readInstance .token (.ofString text) ≠ pure spacedToken := by
  have hsize : spacedToken.size * spacedToken.size < 0x8000000000000000 := by decide
  obtain ⟨hintegers, htokens⟩ := readInstance_writeInstance
  obtain ⟨text, hwrite, hread⟩ := htokens spacedToken hsize
  have hblank : ¬ Text.IsField "7 8" := by decide
  exact ⟨CostMatrix.over_nearTop, hintegers _ _ CostMatrix.over_nearTop, hsize, text, hwrite,
    fun h ↦ hblank (hread.1 h (0 : Fin 1) (0 : Fin 1))⟩

end Dimacs

end LinearAssignment
