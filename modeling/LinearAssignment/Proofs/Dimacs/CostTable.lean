import LinearAssignment.Proofs.CostMatrix.Views
import LinearAssignment.Proofs.Dimacs.Items
import LinearAssignment.Proofs.Dimacs.Numbering

/-!
# The table of all costs

The arcs of an instance are entered into a table one after the other. Entering goes through exactly
if each arc leads from a worker to a task and no two belong into the same cell
(`foldlM_placeArc_eq_pure_iff`), and then every cell holds the cost of its arc
(`getElem?_filled_eq_some_iff`). A table in which no cell is left empty is a matrix
(`matrixOfTable_eq_pure_iff`).
-/

namespace LinearAssignment

namespace Dimacs

variable {α : Type} {n line : Nat} {workers : List Nat}

/-- The table of `n * n` cells after the costs of some arcs have been entered. -/
def filled (n : Nat) (workers : List Nat) (arcs : List (Arc α)) : Array (Option α) :=
  arcs.foldl (fun table arc ↦ table.setIfInBounds (cellOf n workers arc.item.1) (some arc.cost))
    (Array.replicate (n * n) none)

/-- An arc leads from a worker to a task. -/
def Arc.Joins (n : Nat) (workers : List Nat) (arc : Arc α) : Prop :=
  arc.source + 1 ∈ workers ∧ IsTask n workers (arc.sink + 1)

@[simp]
theorem filled_nil : filled n workers ([] : List (Arc α)) = Array.replicate (n * n) none :=
  rfl

@[simp]
theorem filled_append_singleton (arcs : List (Arc α)) (arc : Arc α) :
    filled n workers (arcs ++ [arc]) =
      (filled n workers arcs).setIfInBounds (cellOf n workers arc.item.1) (some arc.cost) := by
  rw [filled, List.foldl_append]
  rfl

@[simp]
theorem size_filled (arcs : List (Arc α)) : (filled n workers arcs).size = n * n := by
  induction arcs using List.reverseRecOn with
  | nil => exact Array.size_replicate
  | append_singleton arcs arc ih => rw [filled_append_singleton, Array.size_setIfInBounds, ih]

/-- The empty cells are those of no arc. -/
theorem getElem?_filled_eq_none_iff {arcs : List (Arc α)} {k : Nat} :
    (filled n workers arcs)[k]? = some none ↔
      k < n * n ∧ k ∉ arcs.map fun arc ↦ cellOf n workers arc.item.1 := by
  induction arcs using List.reverseRecOn with
  | nil => simp [Array.getElem?_replicate]
  | append_singleton arcs arc ih =>
    rw [filled_append_singleton, Array.getElem?_setIfInBounds, size_filled, List.map_append,
      List.map_singleton, List.mem_append, List.mem_singleton, not_or, ← and_assoc, ← ih]
    by_cases hk : cellOf n workers arc.item.1 = k
    · rw [if_pos hk]
      exact iff_of_false (by split <;> simp) fun hne ↦ hne.2 hk.symm
    · rw [if_neg hk]
      exact (and_iff_left (Ne.symm hk)).symm

/-- Where no two arcs have the same cell, a cell holds the cost of its arc. -/
theorem getElem?_filled_eq_some_iff {arcs : List (Arc α)} {k : Nat} {c : α}
    (hnodup : (arcs.map fun arc ↦ cellOf n workers arc.item.1).Nodup) (hk : k < n * n) :
    (filled n workers arcs)[k]? = some (some c) ↔
      ∃ arc ∈ arcs, cellOf n workers arc.item.1 = k ∧ arc.cost = c := by
  induction arcs using List.reverseRecOn with
  | nil => simp [Array.getElem?_replicate]
  | append_singleton arcs arc ih =>
    rw [List.map_append, List.map_singleton, List.nodup_append] at hnodup
    obtain ⟨hnodup, -, hnew⟩ := hnodup
    rw [filled_append_singleton, Array.getElem?_setIfInBounds, size_filled]
    by_cases harc : cellOf n workers arc.item.1 = k
    · have hother (arc' : Arc α) (h : arc' ∈ arcs) : cellOf n workers arc'.item.1 ≠ k := harc ▸
        hnew _ (List.mem_map_of_mem h) _ (List.mem_singleton_self _)
      rw [if_pos harc, if_pos (harc ▸ hk)]
      constructor
      · intro hcost
        exact ⟨arc, by simp, harc, Option.some.inj (Option.some.inj hcost)⟩
      · rintro ⟨arc', hmem, hcell, rfl⟩
        rcases List.mem_append.1 hmem with h | h
        · exact absurd hcell (hother arc' h)
        · rw [List.mem_singleton.1 h]
    · rw [if_neg harc, ih hnodup]
      simp [or_and_right, exists_or, harc]

/-- A cost is entered into a cell exactly if the cell is empty. -/
theorem set_eq_pure_iff {table table' : Array (Option α)} {k : Nat} {c : Option α} {e : Error} :
    (if h : k < table.size then do
      if table[k].isSome then throw e
      return table.set k c
      else throwThe Fault .outOfRange : Reading (Array (Option α))) = pure table' ↔
      table[k]? = some none ∧ table' = table.setIfInBounds k c := by
  split <;> rename_i h
  · rw [Array.getElem?_eq_getElem h, Array.setIfInBounds, dif_pos h]
    cases table[k] with
    | none => simp [Reading.pure_eq_pure_iff, eq_comm]
    | some old => simp [Reading.throw_ne_pure]
  · rw [Array.getElem?_eq_none (Nat.le_of_not_lt h)]
    exact iff_of_false nofun nofun

/-- An arc is entered exactly if it leads from a worker to a task and its cell is empty. -/
theorem placeArc_eq_pure_iff {draft : Array Nat} (h : Sides n workers)
    (hdraft : draft.toList.map (· + 1) = workers) (hword : n * n < Word.bound)
    {table table' : Array (Option α)} {arc : Arc α} (hsource : arc.source < 2 * n)
    (hsink : arc.sink < 2 * n) :
    placeArc ⟨line, n, n * n⟩ draft table arc = pure table' ↔
      arc.Joins n workers ∧ table[cellOf n workers arc.item.1]? = some none ∧
        table' = table.setIfInBounds (cellOf n workers arc.item.1) (some arc.cost) := by
  have hnodes : (⟨line, n, n * n⟩ : Header).nodes = 2 * n := rfl
  have hcell : cellOf n workers arc.item.1 = Nat.count (· ∈ workers) (arc.source + 1) * n +
      Nat.count (IsTask n workers) (arc.sink + 1) := rfl
  rw [placeArc, hnodes, h.roleOf_eq hdraft hsource, h.roleOf_eq hdraft hsink]
  by_cases hu : arc.source + 1 ∈ workers
  · by_cases hv : arc.sink + 1 ∈ workers
    · rw [if_pos hu, if_pos hv]
      refine iff_of_false Reading.throw_ne_pure fun ⟨⟨_, htask⟩, _⟩ ↦ htask.2.2 hv
    · have hjoins : arc.Joins n workers := ⟨hu, Nat.succ_pos _, hsink, hv⟩
      simp only [hu, hv, if_true, if_false, Reading.bind_eq_pure_iff, Reading.liftM_eq_pure_iff,
        Except.ok.injEq, exists_eq_left', Word.mul_eq_ok_iff, Word.add_eq_ok_iff]
      constructor
      · rintro ⟨_, ⟨-, rfl⟩, _, ⟨-, rfl⟩, hset⟩
        exact ⟨hjoins, set_eq_pure_iff.1 hset⟩
      · rintro ⟨-, hset⟩
        have hlt := Nat.lt_trans (h.cellOf_lt hu hjoins.2) hword
        exact ⟨_, ⟨Nat.lt_of_le_of_lt (Nat.le_add_right _ _) hlt, rfl⟩, _, ⟨hlt, rfl⟩,
          set_eq_pure_iff.2 hset⟩
  · rw [if_neg hu]
    refine iff_of_false ?_ fun ⟨hjoins, _⟩ ↦ hu hjoins.1
    split <;> exact Reading.throw_ne_pure

/-- The arcs are entered exactly if each of them leads from a worker to a task and no two belong
into the same cell. -/
theorem foldlM_placeArc_eq_pure_iff {draft : Array Nat} (h : Sides n workers)
    (hdraft : draft.toList.map (· + 1) = workers) (hword : n * n < Word.bound)
    {table : Array (Option α)} {arcs : List (Arc α)}
    (hnodes : ∀ arc ∈ arcs, arc.source < 2 * n ∧ arc.sink < 2 * n) :
    arcs.foldlM (placeArc ⟨line, n, n * n⟩ draft) (Array.replicate (n * n) none) = pure table ↔
      (∀ arc ∈ arcs, arc.Joins n workers) ∧
        (arcs.map fun arc ↦ cellOf n workers arc.item.1).Nodup ∧ table = filled n workers arcs := by
  induction arcs using List.reverseRecOn generalizing table with
  | nil => simp [Reading.pure_eq_pure_iff, eq_comm]
  | append_singleton arcs arc ih =>
    obtain ⟨hsource, hsink⟩ := hnodes arc (by simp)
    have hprev (t : Array (Option α)) := @ih t fun arc' h ↦ hnodes arc' (List.mem_append_left _ h)
    simp only [List.foldlM_append, List.foldlM_cons, List.foldlM_nil, Reading.bind_eq_pure_iff,
      Reading.pure_eq_pure_iff, exists_eq_right, hprev,
      placeArc_eq_pure_iff h hdraft hword hsource hsink]
    constructor
    · rintro ⟨_, ⟨hjoins, hnodup, rfl⟩, harc, hempty, rfl⟩
      rw [getElem?_filled_eq_none_iff] at hempty
      refine ⟨?_, ?_, (filled_append_singleton arcs arc).symm⟩
      · simpa [or_imp, forall_and] using ⟨hjoins, harc⟩
      · rw [List.map_append, List.map_singleton, ← List.concat_eq_append]
        exact hnodup.concat hempty.2
    · rintro ⟨hjoins, hnodup, rfl⟩
      rw [List.map_append, List.map_singleton, List.nodup_append] at hnodup
      have harc := hjoins arc (by simp)
      refine ⟨_, ⟨fun arc' h ↦ hjoins arc' (List.mem_append_left _ h), hnodup.1, rfl⟩, harc, ?_,
        filled_append_singleton arcs arc⟩
      rw [getElem?_filled_eq_none_iff]
      exact ⟨h.cellOf_lt harc.1 harc.2,
        fun hmem ↦ hnodup.2.2 _ hmem _ (List.mem_singleton_self _) rfl⟩

/-! ### The matrix of a table -/

/-- All entries of a table are there exactly if it is a table of entries. -/
theorem mapM_id_eq_some_iff {table : Array (Option α)} {costs : Array α} :
    table.mapM id = some costs ↔ table = costs.map some := by
  have hlist (xs : List (Option α)) (ys : List α) :
      xs.mapM id = some ys ↔ xs = ys.map some := by
    induction xs generalizing ys with
    | nil => cases ys <;> simp
    | cons x xs ih =>
      rw [List.mapM_cons]
      cases ys <;> cases x <;> simp [Option.bind_eq_some_iff, ih, and_comm]
  rw [Array.mapM_eq_mapM_toList, Option.map_eq_map, Option.map_eq_some_iff, ← Array.toList_inj,
    Array.toList_map, ← hlist]
  constructor
  · rintro ⟨ys, hys, rfl⟩
    exact hys
  · exact fun hys ↦ ⟨_, hys, rfl⟩

/-- The matrix of a table in which no cell is empty has the cells as its entries. -/
theorem exists_matrixOfTable_map_some (line : Nat) (hword : n * n < Word.bound) {costs : Array α}
    (hcosts : costs.size = n * n) : ∃ m : CostMatrix α,
      matrixOfTable ⟨line, n, n * n⟩ (costs.map some) = pure m ∧ m.size = n ∧
        ∀ i < n, ∀ j < n, ∃ c, costs[i * n + j]? = some c ∧ m.get i j = .ok c := by
  refine ⟨⟨n, Grid.ofFn fun i j ↦
    have := CostMatrix.index_lt i j
    costs[i.val * n + j.val]⟩, ?_, rfl, fun i hi j hj ↦ ?_⟩
  · rw [matrixOfTable, mapM_id_eq_some_iff.2 rfl]
    dsimp only
    rw [Reading.adapt_eq_pure_iff, CostMatrix.ofEntries, dif_pos hcosts,
      Word.mul_eq_ok_iff.2 ⟨hword, rfl⟩]
    rfl
  · have hk : i * n + j < costs.size := hcosts ▸ CostMatrix.index_lt ⟨i, hi⟩ ⟨j, hj⟩
    exact ⟨costs[i * n + j], Array.getElem?_eq_getElem hk, by simp [CostMatrix.get, hi, hj]⟩

/-- A table is a matrix exactly if no cell is empty. -/
theorem matrixOfTable_eq_pure_iff {table : Array (Option α)} (htable : table.size = n * n)
    (hword : n * n < Word.bound) {m : CostMatrix α} :
    matrixOfTable ⟨line, n, n * n⟩ table = pure m ↔
      m.size = n ∧
        ∀ i < n, ∀ j < n, ∃ c, table[i * n + j]? = some (some c) ∧ m.get i j = .ok c := by
  constructor
  · intro h
    cases hall : table.mapM id with
    | none =>
      rw [matrixOfTable, hall] at h
      exact absurd h Reading.throw_ne_pure
    | some costs =>
      obtain rfl := mapM_id_eq_some_iff.1 hall
      obtain ⟨m', hm', hsize, hcells⟩ :=
        exists_matrixOfTable_map_some line hword (Array.size_map ▸ htable)
      obtain rfl := Reading.pure_eq_pure_iff.1 (h.symm.trans hm')
      refine ⟨hsize, fun i hi j hj ↦ ?_⟩
      obtain ⟨c, hc, hget⟩ := hcells i hi j hj
      exact ⟨c, by rw [Array.getElem?_map, hc]; rfl, hget⟩
  · rintro ⟨hsize, hcells⟩
    have hall (k : Fin table.size) : ∃ c, table[k] = some c := by
      obtain ⟨i, hi, j, hj, hk⟩ := exists_index_eq (Nat.lt_of_lt_of_eq k.isLt htable)
      obtain ⟨c, hc, -⟩ := hcells i hi j hj
      exact ⟨c, Option.some.inj ((Array.getElem?_eq_getElem k.isLt).symm.trans (hk ▸ hc))⟩
    choose cost hcost using hall
    have hcosts : table = (Array.ofFn cost).map some :=
      Array.ext (by simp) fun k hk _ ↦ by simpa using hcost ⟨k, hk⟩
    obtain ⟨m', hm', hsize', hcells'⟩ :=
      exists_matrixOfTable_map_some line hword (Array.size_ofFn.trans htable)
    rw [hcosts, hm', Reading.pure_eq_pure_iff]
    refine CostMatrix.ext_get (hsize'.trans hsize.symm) fun i hi j hj ↦ ?_
    rw [hsize'] at hi hj
    obtain ⟨c, hc, hget⟩ := hcells i hi j hj
    obtain ⟨c', hc', hget'⟩ := hcells' i hi j hj
    rw [hcosts, Array.getElem?_map, hc'] at hc
    exact ⟨c', hget', Option.some.inj (Option.some.inj hc) ▸ hget⟩

end Dimacs

end LinearAssignment
