import LinearAssignment.Dimacs.Solution
import LinearAssignment.Proofs.Dimacs.Items
import LinearAssignment.Proofs.Numerals

/-!
# The lines of a solution

What a line of a solution says is a `SolutionItem`, the value or a pair, and `SolutionItem.Spells`
relates it to the fields of the line. A line is read unless it spells no item or the value for a
second time (`SolutionDraft.readEntry_eq_pure_iff`). So all lines are read exactly if they spell
items with at most one value among them, and then the draft is that of the items
(`foldlM_readEntry_eq_pure_iff`): it knows the line of each pair, but not yet whether its nodes are
a worker and a task.
-/

namespace LinearAssignment.Dimacs

/-- What a line of a solution says. -/
inductive SolutionItem (α : Type)
  /-- The value of the solution. -/
  | value (v : α)
  /-- A worker node has a task node. -/
  | pair (worker task : Nat)

namespace SolutionItem

variable {α : Type}

/-- The fields of a line spell an item: they are the kind of the line and a token for the value, or
for each node and the number one, and there are no others. -/
def Spells (spelling : Spelling α) (fields : List String) : SolutionItem α → Prop
  | value v => ∃ x, fields = ["s", x] ∧ spelling.read x = .ok v
  | pair worker task => ∃ u w y, fields = ["f", u, w, y] ∧ Spelling.word.read u = .ok worker ∧
    Spelling.word.read w = .ok task ∧ Spelling.word.read y = .ok 1

/-- The value on the line of the value. -/
def value? : SolutionItem α → Option α
  | value v => some v
  | pair .. => none

/-- The nodes on the line of a pair. -/
def pair? : SolutionItem α → Option (Nat × Nat)
  | value _ => none
  | pair worker task => some (worker, task)

/-- The pair on a line together with the number of the line. -/
def flow? (line : Nat) : SolutionItem α → Option Flow
  | value _ => none
  | pair worker task => some { line, worker, task }

/-- The values in order. -/
def values (items : List (SolutionItem α)) : List α :=
  items.filterMap value?

/-- The pairs in order. -/
def pairs (items : List (SolutionItem α)) : List (Nat × Nat) :=
  items.filterMap pair?

/-- The pairs in order with the numbers of their lines. -/
def flows (lines : List Nat) (items : List (SolutionItem α)) : List Flow :=
  (lines.zip items).filterMap fun (line, item) ↦ item.flow? line

variable {lines : List Nat} {items : List (SolutionItem α)}

@[simp]
theorem values_append_value (v : α) : values (items ++ [value v]) = values items ++ [v] :=
  List.filterMap_append

@[simp]
theorem values_append_pair (worker task : Nat) :
    values (items ++ [pair worker task]) = values items := by
  simp [values, value?]

theorem flows_append (h : lines.length = items.length) (line : Nat) (item : SolutionItem α) :
    flows (lines ++ [line]) (items ++ [item]) = flows lines items ++ (item.flow? line).toList := by
  rw [flows, List.zip_append h, List.filterMap_append]
  cases item <;> rfl

/-- Without the numbers of their lines, these are the pairs. -/
theorem map_flows (h : lines.length = items.length) :
    (flows lines items).map (fun flow ↦ (flow.worker, flow.task)) = pairs items := by
  have hpair (line : Nat) (item : SolutionItem α) :
      (item.flow? line).map (fun flow ↦ (flow.worker, flow.task)) = item.pair? := by
    cases item <;> rfl
  have hsnd : (lines.zip items).map Prod.snd = items := List.map_snd_zip (Nat.le_of_eq h.symm)
  rw [flows, List.map_filterMap]
  simp only [hpair]
  conv_rhs => rw [pairs, ← hsnd, List.filterMap_map]
  rfl

theorem mem_pairs_iff {worker task : Nat} :
    (worker, task) ∈ pairs items ↔ pair worker task ∈ items := by
  simp only [pairs, List.mem_filterMap]
  constructor
  · rintro ⟨_ | _, hitem, ⟨⟩⟩
    exact hitem
  · exact fun h ↦ ⟨_, h, rfl⟩

/-- The nodes of the lines of pairs are words. -/
theorem lt_bound_of_mem_pairs {spelling : Spelling α} {rows : List (List String)}
    (hspells : List.Forall₂ (Spells spelling) rows items) {p : Nat × Nat} (hp : p ∈ pairs items) :
    p.1 < Word.bound ∧ p.2 < Word.bound := by
  obtain ⟨_, -, _, _, _, -, hworker, htask, -⟩ :=
    exists_of_forall₂_of_mem hspells (mem_pairs_iff.1 hp)
  exact ⟨Spelling.lt_of_read_word hworker, Spelling.lt_of_read_word htask⟩

theorem length_flows_le (lines : List Nat) (items : List (SolutionItem α)) :
    (flows lines items).length ≤ lines.length :=
  Nat.le_trans (List.length_filterMap_le _ _)
    (Nat.le_trans (Nat.le_of_eq List.length_zip) (Nat.min_le_left _ _))

end SolutionItem

open FieldReader

/-! ### One more line -/

namespace SolutionDraft

variable {α : Type} {spelling : Spelling α} {draft draft' : SolutionDraft α} {entry : Entry}
  {lines : List Nat} {items : List (SolutionItem α)} {item : SolutionItem α}

/-- A draft has room for an item: there is only one value. -/
def Admits (draft : SolutionDraft α) : SolutionItem α → Prop
  | .value _ => draft.value = none
  | .pair .. => True

/-- The draft with the item of a line. -/
def add (line : Nat) (draft : SolutionDraft α) : SolutionItem α → SolutionDraft α
  | .value v => { draft with value := some v }
  | .pair worker task => { draft with flows := draft.flows.push { line, worker, task } }

/-- The fields after the kind of the line of the value are read exactly if they are one value, and
there was none. -/
theorem run_readValue_eq_pure_iff {fields : List String} (line : Nat) :
    (∃ rest, StateT.run (draft.readValue spelling) fields = pure (draft', rest)) ↔
      ∃ item, SolutionItem.Spells spelling ("s" :: fields) item ∧ draft.Admits item ∧
        draft' = draft.add line item := by
  simp only [readValue, run_ite_eq_pure_iff, run_bind_eq_pure_iff, run_field_eq_pure_iff,
    run_finish_eq_pure_iff, run_pure_eq_pure_iff, run_malformed_ne_pure, false_and, exists_false,
    and_false, false_or, and_assoc, exists_const, exists_and_left, exists_eq_left,
    Bool.not_eq_true, Option.isSome_eq_false_iff, Option.isNone_iff_eq_none]
  constructor
  · rintro ⟨hnone, _, v, _, ⟨x, rfl, hx⟩, rfl, rfl, -⟩
    exact ⟨.value v, ⟨x, rfl, hx⟩, hnone, rfl⟩
  · rintro ⟨v | _, hspells, hnone, rfl⟩
    · obtain ⟨x, ⟨⟩, hx⟩ := hspells
      exact ⟨hnone, [], v, _, ⟨x, rfl, hx⟩, rfl, rfl, rfl⟩
    · obtain ⟨_, _, _, hfields, -⟩ := hspells
      simp at hfields

/-- The fields after the kind of the line of a pair are read exactly if they are two nodes and the
number one. -/
theorem run_readFlow_eq_pure_iff {fields : List String} {line : Nat} :
    (∃ rest, StateT.run (draft.readFlow line) fields = pure (draft', rest)) ↔
      ∃ item, SolutionItem.Spells spelling ("f" :: fields) item ∧ draft.Admits item ∧
        draft' = draft.add line item := by
  simp only [readFlow, run_ite_eq_pure_iff, run_bind_eq_pure_iff, run_field_eq_pure_iff,
    run_finish_eq_pure_iff, run_pure_eq_pure_iff, run_invalid_ne_pure, false_and, exists_false,
    and_false, or_false, and_assoc, exists_const, exists_and_left, exists_eq_left]
  constructor
  · rintro ⟨_, worker, _, ⟨u, rfl, hu⟩, task, _, ⟨w, rfl, hw⟩, _, _, ⟨y, rfl, hy⟩, rfl, rfl, rfl, -⟩
    exact ⟨.pair worker task, ⟨u, w, y, rfl, hu, hw, hy⟩, trivial, rfl⟩
  · rintro ⟨_ | ⟨worker, task⟩, hspells, -, rfl⟩
    · obtain ⟨_, hfields, -⟩ := hspells
      simp at hfields
    · obtain ⟨u, w, y, ⟨⟩, hu, hw, hy⟩ := hspells
      exact ⟨[], worker, _, ⟨u, rfl, hu⟩, task, _, ⟨w, rfl, hw⟩, 1, _, ⟨y, rfl, hy⟩, rfl, rfl,
        rfl, rfl⟩

/-- A line is read exactly if it spells an item that the draft admits. -/
theorem readEntry_eq_pure_iff :
    draft.readEntry spelling entry = pure draft' ↔
      ∃ item, SolutionItem.Spells spelling entry.allFields item ∧ draft.Admits item ∧
        draft' = draft.add entry.line item := by
  obtain ⟨line, kind, fields⟩ := entry
  rw [readEntry, Entry.run_eq_pure_iff]
  dsimp only [Entry.allFields]
  split
  · exact run_readValue_eq_pure_iff line
  · exact run_readFlow_eq_pure_iff
  · refine iff_of_false (fun ⟨_, h⟩ ↦ run_malformed_ne_pure _ h) ?_
    rintro ⟨_ | _, hspells, -⟩
    · obtain ⟨_, ⟨⟩, -⟩ := hspells
      contradiction
    · obtain ⟨_, _, _, ⟨⟩, -⟩ := hspells
      contradiction

/-! ### All lines -/

/-- The draft of the items of some lines: the first value, and all pairs. -/
def ofItems (lines : List Nat) (items : List (SolutionItem α)) : SolutionDraft α where
  value := (SolutionItem.values items).head?
  flows := (SolutionItem.flows lines items).toArray

/-- The draft of items without a second value admits those with which there is still none. -/
theorem admits_ofItems_iff (h : (SolutionItem.values items).length ≤ 1) :
    (ofItems lines items).Admits item ↔ (SolutionItem.values (items ++ [item])).length ≤ 1 := by
  cases item with
  | value v => simp [Admits, ofItems, List.head?_eq_none_iff]
  | pair worker task => simp [Admits, h]

theorem ofItems_append (hlength : lines.length = items.length)
    (hadmits : (ofItems lines items).Admits item) (line : Nat) :
    ofItems (lines ++ [line]) (items ++ [item]) = (ofItems lines items).add line item := by
  rw [ofItems, SolutionItem.flows_append hlength]
  cases item with
  | value v =>
    have hnone : SolutionItem.values items = [] := List.head?_eq_none_iff.1 hadmits
    simp [add, ofItems, hnone, SolutionItem.flow?]
  | pair worker task => simp [add, ofItems, SolutionItem.flow?]

end SolutionDraft

/-- The lines are read exactly if they spell items with at most one value among them, and what has
been read is what the items say. -/
theorem foldlM_readEntry_eq_pure_iff {α : Type} {spelling : Spelling α} {entries : List Entry}
    {draft : SolutionDraft α} :
    entries.foldlM (SolutionDraft.readEntry spelling) .empty = pure draft ↔
      ∃ items, List.Forall₂ (SolutionItem.Spells spelling) (entries.map Entry.allFields) items ∧
        (SolutionItem.values items).length ≤ 1 ∧
        draft = .ofItems (entries.map Entry.line) items := by
  induction entries using List.reverseRecOn generalizing draft with
  | nil =>
    rw [List.foldlM_nil, Reading.pure_eq_pure_iff]
    constructor
    · rintro rfl
      exact ⟨[], .nil, Nat.zero_le _, rfl⟩
    · rintro ⟨_, ⟨⟩, -, rfl⟩
      rfl
  | append_singleton entries entry ih =>
    simp only [List.foldlM_append, List.foldlM_cons, List.foldlM_nil, Reading.bind_eq_pure_iff,
      Reading.pure_eq_pure_iff, exists_eq_right, ih, SolutionDraft.readEntry_eq_pure_iff,
      List.map_append, List.map_singleton, forall₂_append_singleton_iff]
    -- each line has an item, so the numbers of the lines go with the items
    have hlines {items : List (SolutionItem α)}
        (h : List.Forall₂ (SolutionItem.Spells spelling) (entries.map Entry.allFields) items) :
        (entries.map Entry.line).length = items.length := by
      rw [← h.length_eq, List.length_map, List.length_map]
    constructor
    · rintro ⟨_, ⟨items, hspells, hvalues, rfl⟩, item, hitem, hadmits, rfl⟩
      exact ⟨items ++ [item], ⟨items, item, rfl, hspells, hitem⟩,
        (SolutionDraft.admits_ofItems_iff hvalues).1 hadmits,
        (SolutionDraft.ofItems_append (hlines hspells) hadmits entry.line).symm⟩
    · rintro ⟨_, ⟨items, item, rfl, hspells, hitem⟩, hvalues, rfl⟩
      have hbefore : (SolutionItem.values items).length ≤ 1 := by
        rw [SolutionItem.values, List.filterMap_append, List.length_append] at hvalues
        exact Nat.le_trans (Nat.le_add_right _ _) hvalues
      have hadmits : (SolutionDraft.ofItems (entries.map Entry.line) items).Admits item :=
        (SolutionDraft.admits_ofItems_iff hbefore).2 hvalues
      exact ⟨_, ⟨items, hspells, hbefore, rfl⟩, item, hitem, hadmits,
        SolutionDraft.ofItems_append (hlines hspells) hadmits entry.line⟩

end LinearAssignment.Dimacs
