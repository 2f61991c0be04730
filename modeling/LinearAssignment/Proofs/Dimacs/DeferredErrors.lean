import LinearAssignment.Proofs.Dimacs.Prefixes

/-!
# Where deferred errors are reported

Some checks of a file need all of its lines: whether there are enough of them, which nodes are
workers, and how many pairs there are. They are made after the last line, when each line has passed
the checks of its own. For an instance this means that the lines say some items that fit together
(`InstanceLines`), and for a solution that they say pairs and one value (`SolutionLines`).

Then wrong numbers of workers or arcs are reported on the last line. Apart from these, the arcs are
checked in the order of their lines, and what is wrong with an arc is said in terms of the nodes of
all worker lines and of the arc lines before it (`Arc.issue?`), although the loop knows the arcs
before only by the cells that they have filled (`findsIssues_placeArc`). So the first arc with an
issue is reported, on its own line. The pairs of a solution are checked in the same way.
-/

namespace LinearAssignment.Dimacs

open Text (Source)

variable {α σ β : Type} {spelling : Spelling α} {text : String} {n line : Nat} {workers : List Nat}

/-! ### Issues of an arc -/

/-- The nodes of an arc, numbered from one on. -/
def Arc.ends (arc : Arc α) : Nat × Nat :=
  (arc.source + 1, arc.sink + 1)

theorem Arc.ends_fst (arc : Arc α) : arc.ends.1 = arc.source + 1 :=
  rfl

theorem Arc.ends_snd (arc : Arc α) : arc.ends.2 = arc.sink + 1 :=
  rfl

/-- What is wrong with an arc between nodes of an instance, in view of all worker nodes and of the
arcs before it. -/
def Arc.issue? (workers : List Nat) (before : List (Arc α)) (arc : Arc α) : Option DataIssue :=
  if arc.ends.1 ∉ workers then some (.sourceNotWorker arc.ends.1)
  else if arc.ends.2 ∈ workers then some (.sinkNotTask arc.ends.2)
  else if arc.ends ∈ before.map Arc.ends then some (.duplicateArc arc.ends.1 arc.ends.2)
  else none

/-- An arc without an issue leads from a worker to a task and is not repeated. -/
theorem Arc.issue?_eq_none_iff {before : List (Arc α)} {arc : Arc α} :
    arc.issue? workers before = none ↔
      (arc.ends.1 ∈ workers ∧ arc.ends.2 ∉ workers) ∧ arc.ends ∉ before.map Arc.ends := by
  rw [issue?]
  split_ifs <;> simp [*]

section Table

variable {draft : Array Nat} {before : List (Arc α)} {arc : Arc α}

/-- Among arcs that lead from workers to tasks, the cell of an arc is filled if one before it has
the same nodes. -/
theorem isSome_filled_iff (h : Sides n workers) (hbefore : ∀ arc ∈ before, arc.Joins n workers)
    (harc : arc.Joins n workers)
    (hcell : cellOf n workers arc.ends < (filled n workers before).size) :
    (filled n workers before)[cellOf n workers arc.ends].isSome = true ↔
      arc.ends ∈ before.map Arc.ends := by
  have hempty : (filled n workers before)[cellOf n workers arc.ends] = none ↔
      cellOf n workers arc.ends ∉ before.map fun arc ↦ cellOf n workers arc.item.1 := by
    rw [← Option.some_inj, ← Array.getElem?_eq_getElem hcell, getElem?_filled_eq_none_iff,
      and_iff_right (size_filled before ▸ hcell)]
  rw [Option.isSome_iff_ne_none, Ne, hempty, not_not, List.mem_map, List.mem_map]
  refine exists_congr fun arc' ↦ and_congr_right fun hmem ↦ ⟨fun hcells ↦ ?_, fun hends ↦ ?_⟩
  · exact h.cellOf_inj (hbefore arc' hmem).1 harc.1 (hbefore arc' hmem).2 harc.2 hcells
  · exact congrArg (cellOf n workers) hends

/-- Placing an arc into the table of the arcs before it finds what is wrong with it. -/
theorem placeArc_filled (h : Sides n workers) (hdraft : draft.toList.map (· + 1) = workers)
    (hword : n * n < Word.bound) (hbefore : ∀ arc ∈ before, arc.Joins n workers)
    (hsource : arc.source < 2 * n) (hsink : arc.sink < 2 * n) :
    placeArc ⟨line, n, n * n⟩ draft (filled n workers before) arc =
      match arc.issue? workers before with
      | some issue => throw (.onLine arc.line (.data issue))
      | none => pure (filled n workers (before ++ [arc])) := by
  have hnodes : (⟨line, n, n * n⟩ : Header).nodes = 2 * n := rfl
  rw [placeArc, hnodes, h.roleOf_eq hdraft hsource, h.roleOf_eq hdraft hsink, Arc.issue?,
    Arc.ends_fst, Arc.ends_snd]
  by_cases hu : arc.source + 1 ∈ workers
  · by_cases hv : arc.sink + 1 ∈ workers
    · simp [hu, hv]
    · -- only here the table is looked at
      have hjoins : arc.Joins n workers := ⟨hu, Nat.succ_pos _, hsink, hv⟩
      have hcell : cellOf n workers arc.ends < n * n := h.cellOf_lt hu hjoins.2
      have hcell' : cellOf n workers arc.ends < (filled n workers before).size :=
        (size_filled before).symm ▸ hcell
      have hrow : Word.mul (Nat.count (· ∈ workers) (arc.source + 1)) n =
          .ok (Nat.count (· ∈ workers) (arc.source + 1) * n) :=
        Word.mul_eq_ok_iff.2
          ⟨Nat.lt_of_le_of_lt (Nat.le_add_right _ _) (Nat.lt_trans hcell hword), rfl⟩
      have hindex : Word.add (Nat.count (· ∈ workers) (arc.source + 1) * n)
          (Nat.count (IsTask n workers) (arc.sink + 1)) = .ok (cellOf n workers arc.ends) :=
        Word.add_eq_ok_iff.2 ⟨Nat.lt_trans hcell hword, rfl⟩
      simp only [hu, hv, not_true, if_true, if_false, Reading.liftM_ok_bind, hrow, hindex,
        dif_pos hcell', isSome_filled_iff h hbefore hjoins hcell']
      split
      · rfl
      · rw [filled_append_singleton]
        exact congrArg pure (dif_pos hcell').symm
  · simp only [hu, not_false_eq_true, if_true, if_false, Reading.liftM_ok_bind]

/-- A table has the costs of some arcs that lead from workers to tasks. -/
structure Placed (n : Nat) (workers : List Nat) (table : Array (Option α)) (arcs : List (Arc α)) :
    Prop where
  /-- The costs of the arcs have been entered. -/
  table_eq : table = filled n workers arcs
  /-- The arcs lead from workers to tasks. -/
  joins : ∀ arc ∈ arcs, arc.Joins n workers

/-- Placing the arcs one after the other finds their issues. -/
theorem findsIssues_placeArc (line : Nat) (h : Sides n workers)
    (hdraft : draft.toList.map (· + 1) = workers) (hword : n * n < Word.bound)
    {arcs : List (Arc α)} (hnodes : ∀ arc ∈ arcs, arc.source < 2 * n ∧ arc.sink < 2 * n) :
    FindsIssues (Arc.issue? workers) Arc.line (Placed n workers) (Array.replicate (n * n) none)
      (placeArc ⟨line, n, n * n⟩ draft) arcs where
  start := ⟨rfl, List.forall_mem_nil _⟩
  round_eq_throw before arc hmem table issue hplaced hissue := by
    obtain ⟨rfl, hbefore⟩ := hplaced
    rw [placeArc_filled h hdraft hword hbefore (hnodes arc hmem).1 (hnodes arc hmem).2, hissue]
  exists_round before arc hmem table hplaced hissue := by
    obtain ⟨rfl, hbefore⟩ := hplaced
    obtain ⟨⟨hworker, htask⟩, -⟩ := Arc.issue?_eq_none_iff.1 hissue
    have hjoins : arc.Joins n workers :=
      ⟨hworker, Nat.succ_pos _, (hnodes arc hmem).2, htask⟩
    refine ⟨filled n workers (before ++ [arc]), ?_, rfl, ?_⟩
    · rw [placeArc_filled h hdraft hword hbefore (hnodes arc hmem).1 (hnodes arc hmem).2, hissue]
    · simpa [or_imp, forall_and] using ⟨hbefore, hjoins⟩

end Table

/-! ### The lines of an instance -/

/-- The arcs that some items name on the data lines of a text, the first of which is the problem
line. -/
def arcsOf (text : String) (items : List (Item α)) : List (Arc α) :=
  Item.arcsOn ((numberedDataLines text).tail.map Prod.snd) items

/-- The lines of a text pass the checks of their own, as those of an instance with `n` workers. -/
structure InstanceLines (spelling : Spelling α) (text : String) (n : Nat) (items : List (Item α)) :
    Prop where
  /-- The first data line is the problem line, and the others spell the items. -/
  lines : ∃ head rest, dataLines text = head :: rest ∧ HeadsInstance n head ∧
    List.Forall₂ (Item.Spells spelling) rest items
  /-- No line has a wrong node, repeats a worker or is one too many. -/
  fits : Fits n items

/-- The lines of a text are handled entry by entry. -/
theorem EntryReader.handleLines_ofString (reader : EntryReader σ β) (text : String) :
    reader.handleLines (Source.ofString text).lines =
      (Listing.ofSource (.ofString text)).entries.foldlM reader.handle reader.start := by
  have hentries := reader.foldlM_entries_ofLines 0 (Source.ofString text).lines reader.start
    fun _ state ↦ pure state
  have hend : (Listing.ofLines 0 (Source.ofString text).lines).checkEnd = pure () :=
    Listing.checkEnd_ofString text
  simp only [hend, pure_bind, bind_pure] at hentries
  exact hentries.symm

namespace InstanceLines

variable {items : List (Item α)}

/-- Lines that pass are read into a draft, which knows the lines of the arcs. -/
theorem exists_draft (h : InstanceLines spelling text n items) :
    ∃ line draft, (instanceReader spelling).handleLines (Source.ofString text).lines =
      pure (some (⟨line, n, n * n⟩, draft)) ∧
      draft.Holds items ∧ draft.arcs.toList = arcsOf text items := by
  obtain ⟨⟨head, rest, hlines, hhead, hspells⟩, hfits⟩ := h
  have hdata := Listing.map_allFields_entries text
  rw [hlines] at hdata
  obtain ⟨first, entries, hentries, rfl, rfl⟩ := List.map_eq_cons_iff.1 hdata
  obtain ⟨draft, hdraft, hholds⟩ := exists_draft_of_fits hspells hfits
  refine ⟨first.line, draft, ?_, hholds, ?_⟩
  · rw [EntryReader.handleLines_ofString, hentries, foldlM_handle_start,
      readHeader_eq_pure_iff.2 ⟨n, rfl, hhead⟩, pure_bind, hdraft, pure_bind]
  · rw [toList_arcs_of_foldlM hdraft hspells, arcsOf, ← Listing.map_numberedFields_entries,
      hentries, List.map_cons, List.tail_cons, List.map_map]
    rfl

/-- Exactly the lines that pass are read after a problem line. -/
theorem exists_iff : (∃ n items, InstanceLines spelling text n items) ↔
    ∃ header draft, (instanceReader spelling).handleLines (Source.ofString text).lines =
      pure (some (header, draft)) := by
  constructor
  · rintro ⟨n, items, h⟩
    obtain ⟨line, draft, hlines, -⟩ := h.exists_draft
    exact ⟨_, draft, hlines⟩
  · rintro ⟨header, draft, h⟩
    have hdata := Listing.map_allFields_entries text
    rw [EntryReader.handleLines_ofString] at h
    cases hentries : (Listing.ofSource (.ofString text)).entries with
    | nil =>
      rw [hentries] at h
      cases h
    | cons first entries =>
      simp only [hentries, foldlM_handle_start, Reading.bind_eq_pure_iff,
        Reading.pure_eq_pure_iff] at h
      obtain ⟨_, hheader, draft, hdraft, ⟨⟩⟩ := h
      obtain ⟨n, rfl, hhead⟩ := readHeader_eq_pure_iff.1 hheader
      obtain ⟨items, hspells, hfits, -⟩ := exists_items_of_foldlM hdraft
      rw [hentries] at hdata
      exact ⟨n, items, ⟨_, _, hdata.symm, hhead, hspells⟩, hfits⟩

/-- An instance whose lines pass is decided by what is found after the last line. -/
theorem readInstance_eq (h : InstanceLines spelling text n items) :
    ∃ line, ∃ draft : InstanceDraft α, draft.Holds items ∧
      draft.arcs.toList = arcsOf text items ∧ n * n < Word.bound ∧
      readInstance spelling (.ofString text) =
        draft.finish (Source.ofString text).lines.length ⟨line, n, n * n⟩ := by
  obtain ⟨line, draft, hlines, hholds, harcs⟩ := h.exists_draft
  obtain ⟨⟨_, _, -, hhead, -⟩, -⟩ := h
  refine ⟨line, draft, hholds, harcs, hhead.lt_bound, ?_⟩
  rw [Dimacs.readInstance_eq, EntryReader.readLines, hlines, pure_bind]
  rfl

end InstanceLines

/-- What reading an instance gives whose lines pass, in terms of its worker nodes and arcs. -/
structure InstanceDecided (read : Reading (CostMatrix α)) (lines n : Nat) (workers : List Nat)
    (arcs : List (Arc α)) : Prop where
  /-- A wrong number of workers is reported on the last line. -/
  eq_wrongWorkers : workers.length ≠ n →
    read = throw (.onLine lines (.data (.wrongWorkers n workers.length)))
  /-- Otherwise, so is a wrong number of arcs. -/
  eq_wrongArcs : workers.length = n → arcs.length ≠ n * n →
    read = throw (.onLine lines (.data (.wrongArcs (n * n) arcs.length)))
  /-- With the right numbers, a matrix is read exactly if no arc has an issue. -/
  exists_read_iff : workers.length = n → arcs.length = n * n →
    ((∃ m, read = pure m) ↔ Passes (Arc.issue? workers) arcs)
  /-- The first issue of an arc is reported on the line of the arc. -/
  eq_firstIssue : workers.length = n → arcs.length = n * n → ∀ arc issue,
    FirstIssue (Arc.issue? workers) arcs arc issue →
    read = throw (.onLine arc.line (.data issue))

namespace InstanceDraft.Holds

variable {items : List (Item α)} {draft : InstanceDraft α}

/-- The arcs of a draft with the right number of workers are placed in the order of their lines. -/
theorem findsIssues (h : draft.Holds items) (hfits : Fits n items)
    (hworkers : draft.workers.size = n) (hword : n * n < Word.bound) (line : Nat) :
    FindsIssues (Arc.issue? (Item.workers items)) Arc.line (Placed n (Item.workers items))
      (Array.replicate (n * n) none) (placeArc ⟨line, n, n * n⟩ draft.workers)
      draft.arcs.toList :=
  findsIssues_placeArc line (h.sides hfits hworkers) h.workers_eq hword fun _ ↦ hfits.arc_lt h

/-- With the right numbers of workers and arcs, a draft is finished by placing its arcs. -/
theorem finish_eq (hworkers : draft.workers.size = n) (harcs : draft.arcs.size = n * n)
    (lines line : Nat) : draft.finish lines ⟨line, n, n * n⟩ = (do
      let table ← draft.arcs.toList.foldlM (placeArc ⟨line, n, n * n⟩ draft.workers)
        (Array.replicate (n * n) none)
      matrixOfTable ⟨line, n, n * n⟩ table) := by
  rw [finish, if_pos hworkers, if_pos harcs, Array.foldlM_toList]

theorem decided (h : draft.Holds items) (hfits : Fits n items) (hword : n * n < Word.bound)
    (lines line : Nat) : InstanceDecided (draft.finish lines ⟨line, n, n * n⟩) lines n
      (Item.workers items) draft.arcs.toList where
  eq_wrongWorkers hworkers := by
    rw [h.length_workers] at hworkers ⊢
    rw [finish, if_neg hworkers]
  eq_wrongArcs hworkers harcs := by
    rw [h.length_workers] at hworkers
    rw [Array.length_toList] at harcs ⊢
    rw [finish, if_pos hworkers, if_neg harcs]
  exists_read_iff hworkers harcs := by
    rw [h.length_workers] at hworkers
    rw [Array.length_toList] at harcs
    rw [finish_eq hworkers harcs]
    have hfinds := h.findsIssues hfits hworkers hword line
    constructor
    · rintro ⟨m, hm⟩
      refine (passes_or_exists_firstIssue _ _).resolve_right ?_
      rintro ⟨arc, issue, hfirst⟩
      rw [hfinds.foldlM_eq_throw hfirst] at hm
      cases hm
    · intro hpasses
      obtain ⟨table, htable, -⟩ := hfinds.exists_foldlM hpasses
      obtain ⟨m, hm⟩ := h.exists_matrixOfTable hfits hworkers harcs hword htable
      exact ⟨m, by rw [htable, pure_bind, hm]⟩
  eq_firstIssue hworkers harcs arc issue hfirst := by
    rw [h.length_workers] at hworkers
    rw [Array.length_toList] at harcs
    rw [finish_eq hworkers harcs, (h.findsIssues hfits hworkers hword line).foldlM_eq_throw hfirst,
      Reading.throw_bind]

end InstanceDraft.Holds

/-- An instance whose lines pass is decided by the numbers of its workers and arcs, and then by the
first arc with an issue. -/
theorem InstanceLines.decided {items : List (Item α)} (h : InstanceLines spelling text n items) :
    InstanceDecided (readInstance spelling (.ofString text)) (Source.ofString text).lines.length n
      (Item.workers items) (arcsOf text items) := by
  obtain ⟨line, draft, hholds, harcs, hword, hread⟩ := h.readInstance_eq
  rw [hread, ← harcs]
  exact hholds.decided h.fits hword _ line

/-! ### The lines of a solution -/

/-- The lines of a text pass the checks of their own, as those of a solution, and there is a
value. -/
structure SolutionLines (spelling : Spelling α) (text : String) (v : α)
    (items : List (SolutionItem α)) : Prop where
  /-- The data lines spell the items. -/
  spells : List.Forall₂ (SolutionItem.Spells spelling) (dataLines text) items
  /-- There is one value among the items. -/
  values_eq : SolutionItem.values items = [v]

theorem SolutionItem.length_pairs_add (items : List (SolutionItem α)) :
    (pairs items).length + (values items).length = items.length := by
  induction items with
  | nil => rfl
  | cons item items ih =>
    cases item with
    | value v =>
      exact congrArg (· + 1) ih
    | pair worker task =>
      exact (Nat.add_right_comm _ 1 _).trans (congrArg (· + 1) ih)

/-- A text has no more data lines than line ends and one. -/
theorem length_dataLines_le (text : String) : (dataLines text).length ≤ text.length + 1 := by
  calc (dataLines text).length
      ≤ ((Text.lines text).map Text.fields).length := List.length_filter_le _ _
    _ = text.toList.count '\n' + 1 := by
      rw [List.length_map, Text.lines, List.length_map, Text.length_splitOn]
    _ ≤ text.length + 1 := by
      rw [← String.length_toList]
      exact Nat.succ_le_succ List.count_le_length

namespace SolutionLines

variable {items : List (SolutionItem α)} {v : α}

/-- Exactly the lines that pass are read with a value. -/
theorem exists_iff : (∃ items, SolutionLines spelling text v items) ↔
    ∃ draft, (solutionReader spelling).handleLines (Source.ofString text).lines = pure draft ∧
      draft.value = some v := by
  have hhandle (draft : SolutionDraft α) :
      (solutionReader spelling).handleLines (Source.ofString text).lines = pure draft ↔
        ∃ items, List.Forall₂ (SolutionItem.Spells spelling) (dataLines text) items ∧
          (SolutionItem.values items).length ≤ 1 ∧
          draft = .ofItems ((numberedDataLines text).map Prod.snd) items := by
    rw [EntryReader.handleLines_ofString, ← Listing.map_line_entries,
      ← Listing.map_allFields_entries]
    exact foldlM_readEntry_eq_pure_iff
  simp only [hhandle]
  constructor
  · rintro ⟨items, hspells, hvalues⟩
    exact ⟨_, ⟨items, hspells, Nat.le_of_eq (by rw [hvalues]; rfl), rfl⟩,
      by rw [SolutionDraft.ofItems, hvalues]; rfl⟩
  · rintro ⟨_, ⟨items, hspells, hlength, rfl⟩, hvalue⟩
    refine ⟨items, hspells, ?_⟩
    obtain ⟨rest, hvalues⟩ := List.head?_eq_some_iff.1 hvalue
    rw [hvalues, List.length_cons, Nat.succ_le_succ_iff, Nat.le_zero,
      List.length_eq_zero_iff] at hlength
    rw [hvalues, hlength]

/-- A pair has a line, and so has the value. -/
theorem length_flowsOf_le (h : SolutionLines spelling text v items) :
    (flowsOf text items).length ≤ text.length := by
  have hpairs := congrArg List.length (map_flowsOf h.spells)
  have hitems := SolutionItem.length_pairs_add items
  have hlines := length_dataLines_le text
  rw [List.length_map] at hpairs
  rw [h.values_eq, List.length_singleton, ← h.spells.length_eq] at hitems
  omega

/-- A solution whose lines pass is read exactly if no pair has an issue. -/
theorem exists_read_iff (h : SolutionLines spelling text v items) :
    (∃ r, readSolution spelling (.ofString text) = pure r) ↔
      Passes (Flow.issue? (flowsOf text items).length) (flowsOf text items) := by
  rw [← pairing_iff_passes]
  constructor
  · rintro ⟨r, hr⟩
    rw [readSolution_of_spells h.spells h.values_eq, Reading.bind_eq_pure_iff] at hr
    obtain ⟨matched, hmatched, -⟩ := hr
    exact (enterPairs_eq_pure hmatched).1
  · intro hpairing
    obtain ⟨a, ha, -⟩ := (hpairing.isSolution h.spells h.values_eq).exists_read
    exact ⟨(v, a), ha⟩

/-- The first issue of a pair is reported on the line of the pair. -/
theorem eq_firstIssue (h : SolutionLines spelling text v items)
    (htext : text.length < 0x8000000000000000) {flow : Flow} {issue : DataIssue}
    (hfirst : FirstIssue (Flow.issue? (flowsOf text items).length) (flowsOf text items) flow
      issue) :
    readSolution spelling (.ofString text) = throw (.onLine flow.line (.data issue)) := by
  have hword : 2 * (flowsOf text items).length < Word.bound := by
    have := h.length_flowsOf_le
    rw [Word.bound]
    omega
  rw [readSolution_of_spells h.spells h.values_eq, enterPairs,
    (findsIssues_add hword _).foldlM_eq_throw hfirst, Reading.throw_bind]

end SolutionLines

/-- **Where deferred errors are reported.** Once all lines of a file have passed the checks of their
own, wrong numbers of workers or arcs are reported on the last line. Otherwise an instance is read
unless some arc starts at no worker, ends at no task, or is repeated, and then the first such arc is
reported on its line, wherever the worker lines are. A solution with a value is read unless some
pair is not one of a worker and a task, or has a node of an earlier pair, and then the first such
pair is reported on its line. -/
theorem instanceDecided_and_readSolution (spelling : Spelling α) (text : String) :
    ((∃ n items, InstanceLines spelling text n items) ↔
      ∃ header draft, (instanceReader spelling).handleLines (Source.ofString text).lines =
        pure (some (header, draft))) ∧
    (∀ n items, InstanceLines spelling text n items →
      InstanceDecided (readInstance spelling (.ofString text)) (Source.ofString text).lines.length
        n (Item.workers items) (arcsOf text items)) ∧
    (∀ v, (∃ items, SolutionLines spelling text v items) ↔
      ∃ draft, (solutionReader spelling).handleLines (Source.ofString text).lines = pure draft ∧
        draft.value = some v) ∧
    ∀ v items, SolutionLines spelling text v items →
      ((∃ r, readSolution spelling (.ofString text) = pure r) ↔
        Passes (Flow.issue? (flowsOf text items).length) (flowsOf text items)) ∧
      (text.length < 0x8000000000000000 → ∀ flow issue,
        FirstIssue (Flow.issue? (flowsOf text items).length) (flowsOf text items) flow issue →
        readSolution spelling (.ofString text) = throw (.onLine flow.line (.data issue))) :=
  ⟨InstanceLines.exists_iff, fun _ _ h ↦ h.decided, fun _ ↦ SolutionLines.exists_iff,
    fun _ _ h ↦ ⟨h.exists_read_iff, fun htext _ _ hfirst ↦ h.eq_firstIssue htext hfirst⟩⟩

/-- An instance whose only arc starts at a task, as the line after it says. -/
def workerLast : String :=
  "p asn 2 1\nc worker last\na 1 2 7\nn 2\n"

/-- A solution with two pairs, the second of which has a third worker. -/
def thirdWorker : String :=
  "f 1 3 1\ns 4\nf 3 4 1\n"

theorem instanceDecided_and_readSolution_workerLast :
    InstanceLines (.integer (.unsigned 8)) workerLast 1 [.arc 1 2 7, .worker 2] ∧
      readInstance (.integer (.unsigned 8)) (.ofString workerLast) =
        throw (.onLine 3 (.data (.sourceNotWorker 1))) ∧
      SolutionLines (.integer (.unsigned 8)) thirdWorker 4 [.pair 1 3, .value 4, .pair 3 4] ∧
      thirdWorker.length < 0x8000000000000000 ∧
      readSolution (.integer (.unsigned 8)) (.ofString thirdWorker) =
        throw (.onLine 3 (.data (.invalidPair 3 4))) := by
  have hlines : dataLines workerLast = [["p", "asn", "2", "1"], ["a", "1", "2", "7"], ["n", "2"]] :=
    by decide +kernel
  have hinstance : InstanceLines (.integer (.unsigned 8)) workerLast 1 [.arc 1 2 7, .worker 2] :=
    { lines := ⟨_, _, hlines, ⟨"2", "1", rfl, by decide +kernel, by decide +kernel⟩,
        .cons ⟨"1", "2", "7", rfl, by decide +kernel, by decide +kernel, by decide +kernel⟩
          (.cons ⟨"2", rfl, by decide +kernel⟩ .nil)⟩
      fits := ⟨by decide, by decide, by decide, by decide, by decide⟩ }
  have harcs : arcsOf workerLast ([.arc 1 2 7, .worker 2] : List (Item Int)) = [⟨3, 0, 1, 7⟩] := by
    decide +kernel
  have hlines' : dataLines thirdWorker = [["f", "1", "3", "1"], ["s", "4"], ["f", "3", "4", "1"]] :=
    by decide +kernel
  have hsolution : SolutionLines (.integer (.unsigned 8)) thirdWorker 4
      [.pair 1 3, .value 4, .pair 3 4] :=
    { spells := hlines' ▸
        .cons ⟨"1", "3", "1", rfl, by decide +kernel, by decide +kernel, by decide +kernel⟩
          (.cons ⟨"4", rfl, by decide +kernel⟩ (.cons ⟨"3", "4", "1", rfl, by decide +kernel,
            by decide +kernel, by decide +kernel⟩ .nil))
      values_eq := rfl }
  have hflows : flowsOf thirdWorker ([.pair 1 3, .value 4, .pair 3 4] : List (SolutionItem Int)) =
      [⟨1, 1, 3⟩, ⟨3, 3, 4⟩] := by decide +kernel
  have hlength : thirdWorker.length < 0x8000000000000000 := by decide +kernel
  obtain ⟨-, hdecided, -⟩ :=
    instanceDecided_and_readSolution (.integer (.unsigned 8)) workerLast
  obtain ⟨-, -, -, hread⟩ :=
    instanceDecided_and_readSolution (.integer (.unsigned 8)) thirdWorker
  refine ⟨hinstance, ?_, hsolution, hlength, ?_⟩
  · refine (hdecided _ _ hinstance).eq_firstIssue rfl (by rw [harcs]; rfl) ⟨3, 0, 1, 7⟩ _ ?_
    rw [harcs]
    exact ⟨[], [], rfl, passes_nil _, rfl⟩
  · refine (hread _ _ hsolution).2 hlength ⟨3, 3, 4⟩ _ ?_
    rw [hflows]
    exact ⟨[⟨1, 1, 3⟩], [], rfl, passes_append_singleton_iff.2 ⟨passes_nil _, rfl⟩, rfl⟩

end LinearAssignment.Dimacs
