import LinearAssignment.Proofs.Dimacs.CostTable
import LinearAssignment.Proofs.Numerals

/-!
# Complete instances

A text is the file of a complete instance if its first data line announces the nodes and arcs of
some number of workers, and the other data lines name so many workers and have an arc from each of
them to each of the other nodes (`IsInstance`). Exactly these texts are read
(`readInstance_eq_pure_iff`), although reading never asks whether all arcs are there: it
counts them, and checks that they lead from workers to tasks and that none is repeated. The two are
the same because there are only as many pairs of a worker and a task (`Complete.perm_pairs`).
-/

namespace LinearAssignment.Dimacs

variable {α : Type} {spelling : Spelling α} {text : String} {n line : Nat} {items : List (Item α)}
  {m : CostMatrix α}

/-- The nodes of the arc lines in order. -/
def Item.ends (items : List (Item α)) : List (Nat × Nat) :=
  (Item.arcs items).map Prod.fst

/-- The items are those of an instance with `n` workers in which each worker has an arc to each
task. -/
structure Complete (n : Nat) (items : List (Item α)) : Prop where
  /-- Half of the nodes are workers. -/
  sides : Sides n (Item.workers items)
  /-- There are as many arcs as pairs of a worker and a task. -/
  length_ends : (Item.ends items).length = n * n
  /-- Each pair of a worker and a task has one arc. -/
  count_ends : ∀ u ∈ Item.workers items, ∀ v, IsTask n (Item.workers items) v →
    (Item.ends items).count (u, v) = 1

/-- The text is the file of a complete instance with `n` workers: its first data line is the problem
line, and the others spell the items. -/
structure IsInstance (spelling : Spelling α) (text : String) (n : Nat) (items : List (Item α)) :
    Prop where
  /-- What the data lines say. -/
  lines : ∃ head rest, dataLines text = head :: rest ∧ HeadsInstance n head ∧
    List.Forall₂ (Item.Spells spelling) rest items
  /-- The items are complete. -/
  complete : Complete n items

/-- The entry of the matrix in row `i` and column `j` is the cost on the arc from the `i`-th
smallest worker to the `j`-th smallest task, counting from zero. -/
structure IsMatrixOf (n : Nat) (items : List (Item α)) (m : CostMatrix α) : Prop where
  /-- There is a row for each worker. -/
  size_eq : m.size = n
  /-- The entries are costs on arcs. -/
  get_eq : ∀ i < n, ∀ j < n, ∃ c, .arc (Nat.nth (· ∈ Item.workers items) i)
    (Nat.nth (IsTask n (Item.workers items)) j) c ∈ items ∧ m.get i j = .ok c

/-! ### All pairs have arcs -/

/-- The arcs of a complete instance are those from a worker to a task, in some order. -/
theorem Complete.perm_pairs (h : Complete n items) :
    (((Item.workers items).toFinset ×ˢ
      (Finset.range (2 * n + 1)).filter (IsTask n (Item.workers items))).toList).Perm
      (Item.ends items) := by
  refine (List.subperm_of_subset (Finset.nodup_toList _) ?_).perm_of_length_le ?_
  · intro p hp
    simp only [Finset.mem_toList, Finset.mem_product, List.mem_toFinset, Finset.mem_filter] at hp
    exact List.count_pos_iff.1 (by rw [h.count_ends p.1 hp.1 p.2 hp.2.2]; exact Nat.one_pos)
  · rw [Finset.length_toList, Finset.card_product, ← Nat.count_eq_card_filter_range,
      h.sides.count_tasks, List.toFinset_card_of_nodup h.sides.nodup, h.sides.length_eq,
      h.length_ends]

/-- No arc of a complete instance is repeated. -/
theorem Complete.nodup_ends (h : Complete n items) : (Item.ends items).Nodup :=
  h.perm_pairs.nodup (Finset.nodup_toList _)

/-- The arcs of a complete instance lead from workers to tasks. -/
theorem Complete.joins (h : Complete n items) {e : Nat × Nat} (he : e ∈ Item.ends items) :
    e.1 ∈ Item.workers items ∧ IsTask n (Item.workers items) e.2 := by
  have hp := h.perm_pairs.mem_iff.2 he
  simp only [Finset.mem_toList, Finset.mem_product, List.mem_toFinset, Finset.mem_filter] at hp
  exact ⟨hp.1, hp.2.2⟩

/-! ### The table of a draft -/

namespace InstanceDraft.Holds

variable {draft : InstanceDraft α}

theorem ends_eq (h : draft.Holds items) :
    draft.arcs.toList.map (fun arc ↦ arc.item.1) = Item.ends items := by
  rw [Item.ends, ← h.arcs_eq, List.map_map]
  rfl

theorem length_ends (h : draft.Holds items) : (Item.ends items).length = draft.arcs.size := by
  rw [Item.ends, List.length_map, h.length_arcs]

/-- With the right number of workers, half of the nodes are workers. -/
theorem sides (h : draft.Holds items) (hfits : Fits n items) (hworkers : draft.workers.size = n) :
    Sides n (Item.workers items) where
  length_eq := h.length_workers.trans hworkers
  nodup := hfits.workers_nodup
  mem_nodes := hfits.mem_workers

theorem map_cellOf_ends (h : draft.Holds items) (n : Nat) (workers : List Nat) :
    (Item.ends items).map (cellOf n workers) =
      draft.arcs.toList.map fun arc ↦ cellOf n workers arc.item.1 := by
  rw [← h.ends_eq, List.map_map]
  rfl

/-- A cell of the table of a draft holds the cost on the arc from its worker to its task. -/
theorem getElem?_filled_iff (h : draft.Holds items) (hsides : Sides n (Item.workers items))
    (hjoins : ∀ arc ∈ draft.arcs.toList, arc.Joins n (Item.workers items))
    (hnodup : (draft.arcs.toList.map fun arc ↦ cellOf n (Item.workers items) arc.item.1).Nodup)
    {i j : Nat} (hi : i < n) (hj : j < n) {c : α} :
    (filled n (Item.workers items) draft.arcs.toList)[i * n + j]? = some (some c) ↔
      .arc (Nat.nth (· ∈ Item.workers items) i) (Nat.nth (IsTask n (Item.workers items)) j) c ∈
        items := by
  rw [getElem?_filled_eq_some_iff hnodup (CostMatrix.index_lt ⟨i, hi⟩ ⟨j, hj⟩), ← Item.mem_arcs_iff,
    ← h.arcs_eq, List.mem_map]
  refine exists_congr fun arc ↦ and_congr_right fun hmem ↦ ?_
  have harc := hjoins arc hmem
  rw [Arc.item, hsides.cellOf_eq_iff harc.1 harc.2 hi hj, Prod.mk.injEq, Prod.mk.injEq]

/-- The table of a draft is a matrix exactly if the items are complete, and then it is their
matrix. -/
theorem exists_table_iff (h : draft.Holds items) (hsides : Sides n (Item.workers items))
    (hlength : (Item.ends items).length = n * n)
    (hnodes : ∀ arc ∈ draft.arcs.toList, arc.source < 2 * n ∧ arc.sink < 2 * n)
    (hword : n * n < Word.bound) :
    (∃ table, draft.arcs.toList.foldlM (placeArc ⟨line, n, n * n⟩ draft.workers)
      (Array.replicate (n * n) none) = pure table ∧ matrixOfTable ⟨line, n, n * n⟩ table = pure m) ↔
      Complete n items ∧ IsMatrixOf n items m := by
  simp only [foldlM_placeArc_eq_pure_iff hsides h.workers_eq hword hnodes]
  constructor
  · rintro ⟨_, ⟨hjoins, hnodup, rfl⟩, hmatrix⟩
    rw [matrixOfTable_eq_pure_iff (size_filled _) hword] at hmatrix
    have hmatrixOf : IsMatrixOf n items m := ⟨hmatrix.1, fun i hi j hj ↦
      (hmatrix.2 i hi j hj).imp fun c ↦
        And.imp_left (h.getElem?_filled_iff hsides hjoins hnodup hi hj).1⟩
    refine ⟨⟨hsides, hlength, fun u hu v hv ↦ ?_⟩, hmatrixOf⟩
    rw [← h.map_cellOf_ends] at hnodup
    refine List.count_eq_one_of_mem hnodup.of_map ?_
    -- the cell of a worker and a task is not empty, so there is an arc between them
    obtain ⟨c, hc, -⟩ :=
      hmatrixOf.get_eq _ (hsides.count_worker_lt hu) _ (hsides.count_task_lt hv)
    rw [Nat.nth_count hu, Nat.nth_count hv] at hc
    exact List.mem_map.2 ⟨((u, v), c), Item.mem_arcs_iff.2 hc, rfl⟩
  · rintro ⟨hcomplete, hmatrixOf⟩
    have hjoins : ∀ arc ∈ draft.arcs.toList, arc.Joins n (Item.workers items) := fun arc harc ↦
      have hmem : arc.item.1 ∈ Item.ends items := h.ends_eq ▸ List.mem_map_of_mem harc
      hcomplete.joins hmem
    -- the arcs are all pairs of a worker and a task, and different pairs have different cells
    have hnodup : (draft.arcs.toList.map fun arc ↦
        cellOf n (Item.workers items) arc.item.1).Nodup := by
      rw [← h.map_cellOf_ends]
      refine hcomplete.nodup_ends.map_on fun e he e' he' heq ↦ ?_
      exact hsides.cellOf_inj (hcomplete.joins he).1 (hcomplete.joins he').1
        (hcomplete.joins he).2 (hcomplete.joins he').2 heq
    refine ⟨_, ⟨hjoins, hnodup, rfl⟩, (matrixOfTable_eq_pure_iff (size_filled _) hword).2
      ⟨hmatrixOf.size_eq, fun i hi j hj ↦ (hmatrixOf.get_eq i hi j hj).imp fun c ↦ ?_⟩⟩
    exact And.imp_left (h.getElem?_filled_iff hsides hjoins hnodup hi hj).2

end InstanceDraft.Holds

/-! ### The whole file -/

/-- A text is read as a matrix if its first data line is read, then its other data lines, then the
counts of workers and arcs are right, and then the table of the arcs is the matrix. -/
theorem readInstance_eq_pure_iff_exists_draft {listing : Listing}
    (hlisting : listing = .ofSource (.ofString text)) :
    readInstance spelling (.ofString text) = pure m ↔
      ∃ first rest n draft, listing.entries = first :: rest ∧ HeadsInstance n first.allFields ∧
        rest.foldlM (InstanceDraft.readEntry spelling ⟨first.line, n, n * n⟩) .empty = pure draft ∧
        draft.workers.size = n ∧ draft.arcs.size = n * n ∧
        ∃ table, draft.arcs.toList.foldlM (placeArc ⟨first.line, n, n * n⟩ draft.workers)
          (Array.replicate (n * n) none) = pure table ∧
          matrixOfTable ⟨first.line, n, n * n⟩ table = pure m := by
  have hend : listing.checkEnd = pure () := hlisting ▸ Listing.checkEnd_ofString text
  rw [readInstance, ← hlisting]
  cases hentries : listing.entries with
  | nil =>
    simp [hend, Listing.fail, Reading.throw_ne_pure]
  | cons first rest =>
    simp only [hend, Reading.bind_eq_pure_iff, readHeader_eq_pure_iff, ite_eq_iff, Listing.fail,
      Reading.throw_ne_pure, false_and, exists_false, and_false, or_false, true_and,
      Array.foldlM_toList]
    constructor
    · rintro ⟨_, ⟨n, rfl, hhead⟩, draft, hdraft, _, hworkers, harcs, htable⟩
      exact ⟨first, rest, n, draft, rfl, hhead, hdraft, hworkers, harcs, htable⟩
    · rintro ⟨_, _, n, draft, ⟨⟩, hhead, hdraft, hworkers, harcs, htable⟩
      exact ⟨_, ⟨n, rfl, hhead⟩, draft, hdraft, (), hworkers, harcs, htable⟩

/-- The number of arcs of a problem line is a word. -/
theorem HeadsInstance.lt_bound {fields : List String} (h : HeadsInstance n fields) :
    n * n < Word.bound := by
  obtain ⟨_, _, -, -, harcs⟩ := h
  exact Spelling.lt_of_read_word harcs

theorem Complete.fits (h : Complete n items) : Fits n items where
  workers_le := Nat.le_of_eq h.sides.length_eq
  workers_nodup := h.sides.nodup
  mem_workers := h.sides.mem_nodes
  arcs_le := Nat.le_of_eq (List.length_map Prod.fst ▸ h.length_ends)
  mem_arcs _ ha :=
    have hjoins := h.joins (List.mem_map_of_mem ha)
    ⟨h.sides.mem_nodes _ hjoins.1, hjoins.2.1, hjoins.2.2.1⟩

/-- The arcs of a draft of items that fit are between nodes of the instance. -/
theorem Fits.arc_lt {draft : InstanceDraft α} (h : Fits n items) (hholds : draft.Holds items)
    {arc : Arc α} (harc : arc ∈ draft.arcs.toList) : arc.source < 2 * n ∧ arc.sink < 2 * n :=
  have hmem : arc.item ∈ Item.arcs items := hholds.arcs_eq ▸ List.mem_map_of_mem harc
  ⟨(h.mem_arcs _ hmem).1.2, (h.mem_arcs _ hmem).2.2⟩

/-- A text is read as a matrix exactly if it is the file of a complete instance with the matrix. -/
theorem readInstance_eq_pure_iff : readInstance spelling (.ofString text) = pure m ↔
    ∃ n items, IsInstance spelling text n items ∧ IsMatrixOf n items m := by
  have hdata := Listing.map_allFields_entries text
  rw [readInstance_eq_pure_iff_exists_draft rfl]
  constructor
  · rintro ⟨first, rest, n, draft, hentries, hhead, hdraft, hworkers, harcs, htable⟩
    obtain ⟨items, hspells, hfits, hholds⟩ := exists_items_of_foldlM hdraft
    obtain ⟨hcomplete, hmatrix⟩ := (hholds.exists_table_iff (hholds.sides hfits hworkers)
      (hholds.length_ends.trans harcs) (fun _ ↦ hfits.arc_lt hholds) hhead.lt_bound).1 htable
    rw [hentries] at hdata
    exact ⟨n, items, ⟨⟨_, _, hdata.symm, hhead, hspells⟩, hcomplete⟩, hmatrix⟩
  · rintro ⟨n, items, ⟨⟨head, rest, hlines, hhead, hspells⟩, hcomplete⟩, hmatrix⟩
    rw [hlines] at hdata
    obtain ⟨first, entries, hentries, rfl, rfl⟩ := List.map_eq_cons_iff.1 hdata
    obtain ⟨draft, hdraft, hholds⟩ := exists_draft_of_fits hspells hcomplete.fits
    exact ⟨first, entries, n, draft, hentries, hhead, hdraft,
      hholds.length_workers.symm.trans hcomplete.sides.length_eq,
      hholds.length_ends.symm.trans hcomplete.length_ends,
      (hholds.exists_table_iff hcomplete.sides hcomplete.length_ends
        (fun _ ↦ hcomplete.fits.arc_lt hholds) hhead.lt_bound).2 ⟨hcomplete, hmatrix⟩⟩

/-- A complete instance has a matrix. -/
theorem Complete.exists_isMatrixOf (h : Complete n items) : ∃ m, IsMatrixOf n items m := by
  have hcost (i j : Fin n) : ∃ c, .arc (Nat.nth (· ∈ Item.workers items) i)
      (Nat.nth (IsTask n (Item.workers items)) j) c ∈ items := by
    have hcount := h.count_ends _ (h.sides.nth_worker i.isLt).1 _ (h.sides.nth_task j.isLt).1
    obtain ⟨⟨_, c⟩, hmem, rfl⟩ := List.mem_map.1 (List.count_pos_iff.1 (hcount ▸ Nat.one_pos))
    exact ⟨c, Item.mem_arcs_iff.1 hmem⟩
  choose cost hcost using hcost
  refine ⟨⟨n, Grid.ofFn cost⟩, rfl, fun i hi j hj ↦ ⟨_, hcost ⟨i, hi⟩ ⟨j, hj⟩, ?_⟩⟩
  exact CostMatrix.get_eq_ok_iff.2 ⟨hi, hj, Grid.cell_ofFn cost _ _⟩

/-- The file of a complete instance is read as a matrix of the instance. -/
theorem IsInstance.exists_read (h : IsInstance spelling text n items) :
    ∃ m, readInstance spelling (.ofString text) = pure m ∧ IsMatrixOf n items m := by
  obtain ⟨m, hm⟩ := h.complete.exists_isMatrixOf
  exact ⟨m, readInstance_eq_pure_iff.2 ⟨n, items, h, hm⟩, hm⟩

/-! ### The order of the lines -/

section Order

variable {items' : List (Item α)} {text' : String} {head : List String}
  {rest rest' : List (List String)}

theorem Item.workers_perm (h : items.Perm items') :
    (Item.workers items).Perm (Item.workers items') :=
  h.filterMap _

theorem Item.ends_perm (h : items.Perm items') : (Item.ends items).Perm (Item.ends items') :=
  (h.filterMap _).map _

theorem isTask_congr (h : items.Perm items') :
    IsTask n (Item.workers items) = IsTask n (Item.workers items') := by
  funext v
  rw [IsTask, IsTask, (Item.workers_perm h).mem_iff]

theorem Complete.perm (h : Complete n items) (hperm : items.Perm items') : Complete n items' where
  sides :=
    { length_eq := (Item.workers_perm hperm).length_eq.symm.trans h.sides.length_eq
      nodup := (Item.workers_perm hperm).nodup h.sides.nodup
      mem_nodes := fun u hu ↦ h.sides.mem_nodes u ((Item.workers_perm hperm).mem_iff.2 hu) }
  length_ends := (Item.ends_perm hperm).length_eq.symm.trans h.length_ends
  count_ends u hu v hv := by
    rw [← (Item.ends_perm hperm).count_eq]
    exact h.count_ends u ((Item.workers_perm hperm).mem_iff.2 hu) v (isTask_congr hperm ▸ hv)

theorem IsMatrixOf.perm (h : IsMatrixOf n items m) (hperm : items.Perm items') :
    IsMatrixOf n items' m where
  size_eq := h.size_eq
  get_eq i hi j hj := by
    have hworkers : (· ∈ Item.workers items') = (· ∈ Item.workers items) :=
      funext fun u ↦ propext (Item.workers_perm hperm).mem_iff.symm
    obtain ⟨c, hc, hget⟩ := h.get_eq i hi j hj
    exact ⟨c, by rwa [hworkers, ← isTask_congr hperm, ← hperm.mem_iff], hget⟩

/-- Texts with the same problem line and the same other lines in any order are read as the same
matrix. -/
theorem readInstance_of_perm (hlines : dataLines text = head :: rest)
    (hlines' : dataLines text' = head :: rest') (hperm : rest.Perm rest')
    (h : readInstance spelling (.ofString text) = pure m) :
    readInstance spelling (.ofString text') = pure m := by
  obtain ⟨n, items, ⟨⟨head', _, heq, hhead, hspells⟩, hcomplete⟩, hmatrix⟩ :=
    readInstance_eq_pure_iff.1 h
  obtain ⟨rfl, rfl⟩ := List.cons.inj (hlines.symm.trans heq)
  obtain ⟨items', hspells', hitems⟩ := List.perm_comp_forall₂ hperm.symm hspells
  exact readInstance_eq_pure_iff.2 ⟨n, items', ⟨⟨head, rest', hlines', hhead, hspells'⟩,
    hcomplete.perm hitems.symm⟩, hmatrix.perm hitems.symm⟩

end Order

/-- **Which texts are instances.** Exactly the files of complete instances are read. The matrix has
a row for each worker and a column for each task, both in the order of their nodes, and its entries
are the costs on the arcs between them. It depends neither on the order of the lines after the
problem line nor on blanks and comments. -/
theorem exists_readInstance_iff_isInstance (spelling : Spelling α) (text : String) :
    ((∃ m, readInstance spelling (.ofString text) = pure m) ↔
      ∃ n items, IsInstance spelling text n items) ∧
    (∀ n items m, IsInstance spelling text n items →
      readInstance spelling (.ofString text) = pure m → IsMatrixOf n items m) ∧
    ∀ text' head rest rest', dataLines text = head :: rest → dataLines text' = head :: rest' →
      rest.Perm rest' → ∀ m, readInstance spelling (.ofString text) = pure m ↔
        readInstance spelling (.ofString text') = pure m := by
  refine ⟨⟨?_, ?_⟩, ?_, ?_⟩
  · rintro ⟨m, hm⟩
    obtain ⟨n, items, h, -⟩ := readInstance_eq_pure_iff.1 hm
    exact ⟨n, items, h⟩
  · rintro ⟨n, items, h⟩
    obtain ⟨m, hm, -⟩ := h.exists_read
    exact ⟨m, hm⟩
  · intro n items m h hm
    obtain ⟨m', hm', hmatrix⟩ := h.exists_read
    exact Reading.pure_eq_pure_iff.1 (hm'.symm.trans hm) ▸ hmatrix
  · intro text' head rest rest' hlines hlines' hperm m
    exact ⟨readInstance_of_perm hlines hlines' hperm,
      readInstance_of_perm hlines' hlines hperm.symm⟩

/-- What a file is read as can be compared. -/
instance [DecidableEq α] : DecidableEq (Reading α) :=
  inferInstanceAs (DecidableEq (Except Fault (Except Error α)))

/-- An instance with the second node as its worker. -/
def secondNode : String :=
  "p asn 2 1\nn 2\na 2 1 7\n"

/-- The same instance with a comment, other blanks, and the arc before its worker. -/
def secondNodeReordered : String :=
  "c worker last\n\tp  asn 2 1\r\n\na 2 1 7 \n n 2"

theorem exists_readInstance_iff_isInstance_secondNode :
    IsInstance (.integer (.unsigned 8)) secondNode 1 [.worker 2, .arc 2 1 7] ∧
      readInstance (.integer (.unsigned 8)) (.ofString secondNode) = pure ⟨1, #v[#v[7]]⟩ ∧
      readInstance (.integer (.unsigned 8)) (.ofString secondNodeReordered) =
        pure ⟨1, #v[#v[7]]⟩ ∧
      IsMatrixOf 1 [.worker 2, .arc 2 1 7] (⟨1, #v[#v[7]]⟩ : CostMatrix Int) := by
  have hlines : dataLines secondNode = [["p", "asn", "2", "1"], ["n", "2"], ["a", "2", "1", "7"]] :=
    by decide +kernel
  have hlines' : dataLines secondNodeReordered =
    [["p", "asn", "2", "1"], ["a", "2", "1", "7"], ["n", "2"]] := by decide +kernel
  have hread : readInstance (.integer (.unsigned 8)) (.ofString secondNode) =
    pure ⟨1, #v[#v[7]]⟩ := by decide +kernel
  have hinstance : IsInstance (.integer (.unsigned 8)) secondNode 1 [.worker 2, .arc 2 1 7] :=
    { lines := ⟨_, _, hlines, ⟨"2", "1", rfl, by decide +kernel, by decide +kernel⟩,
        .cons ⟨"2", rfl, by decide +kernel⟩ (.cons ⟨"2", "1", "7", rfl, by decide +kernel,
          by decide +kernel, by decide +kernel⟩ .nil)⟩
      complete :=
        { sides := ⟨rfl, by decide, by decide⟩
          length_ends := rfl
          count_ends := by
            rintro u hu v ⟨hlow, hhigh, hother⟩
            obtain rfl : u = 2 := List.mem_singleton.1 hu
            obtain rfl : v = 1 := by
              have hv : v ≠ 2 := mt List.mem_singleton.2 hother
              omega
            rfl } }
  obtain ⟨-, hmatrix, horder⟩ :=
    exists_readInstance_iff_isInstance (.integer (.unsigned 8)) secondNode
  exact ⟨hinstance, hread, (horder _ _ _ _ hlines hlines' (.swap _ _ _) _).1 hread,
    hmatrix _ _ _ hinstance hread⟩

end LinearAssignment.Dimacs
