import LinearAssignment.Proofs.Dimacs.Fields
import Mathlib.Data.List.Forall2
import Mathlib.Data.List.Induction

/-!
# The lines of an instance

What a line of an instance says is an `Item`, and `Item.Spells` relates it to the fields of the
line. The problem line is read exactly if it announces some number of workers
(`readHeader_eq_pure_iff`), and another line exactly if it spells an item that the draft admits
(`InstanceDraft.readEntry_eq_pure_iff`). Line by line, a draft is read from the lines that spell
items which fit together (`exists_items_of_foldlM`, `exists_draft_of_fits`): the number of the lines
and the ranges of their nodes are checked, but not yet which nodes are workers.
-/

namespace LinearAssignment.Dimacs

/-- What a line of an instance after the problem line says. Nodes are numbered from one on. -/
inductive Item (α : Type)
  /-- A node is a worker. -/
  | worker (node : Nat)
  /-- There is an arc between two nodes, with a cost. -/
  | arc (source sink : Nat) (cost : α)

namespace Item

variable {α : Type}

/-- The fields of a line spell an item: they are the kind of the line and a token for each number or
cost, and there are no others. -/
def Spells (spelling : Spelling α) (fields : List String) : Item α → Prop
  | worker node => ∃ u, fields = ["n", u] ∧ Spelling.word.read u = .ok node
  | arc source sink cost => ∃ u v c, fields = ["a", u, v, c] ∧ Spelling.word.read u = .ok source ∧
    Spelling.word.read v = .ok sink ∧ spelling.read c = .ok cost

/-- The node of a worker line. -/
def worker? : Item α → Option Nat
  | worker node => some node
  | arc .. => none

/-- The nodes and the cost of an arc line. -/
def arc? : Item α → Option ((Nat × Nat) × α)
  | worker _ => none
  | arc source sink cost => some ((source, sink), cost)

/-- The nodes of the worker lines in order. -/
def workers (items : List (Item α)) : List Nat :=
  items.filterMap worker?

/-- The nodes and costs of the arc lines in order. -/
def arcs (items : List (Item α)) : List ((Nat × Nat) × α) :=
  items.filterMap arc?

/-- The arc that an item says, with the number of its line. -/
def arcOn? (line : Nat) : Item α → Option (Arc α)
  | worker _ => none
  | arc source sink cost => some { line, source := source - 1, sink := sink - 1, cost }

/-- The arcs in order with the numbers of their lines. -/
def arcsOn (lines : List Nat) (items : List (Item α)) : List (Arc α) :=
  (lines.zip items).filterMap fun (line, item) ↦ item.arcOn? line

variable {items : List (Item α)} {u v : Nat} {c : α}

@[simp]
theorem workers_append (items items' : List (Item α)) :
    workers (items ++ items') = workers items ++ workers items' :=
  List.filterMap_append

@[simp]
theorem arcs_append (items items' : List (Item α)) :
    arcs (items ++ items') = arcs items ++ arcs items' :=
  List.filterMap_append

@[simp]
theorem workers_worker (node : Nat) : workers [(worker node : Item α)] = [node] :=
  rfl

@[simp]
theorem workers_arc (source sink : Nat) (cost : α) : workers [arc source sink cost] = [] :=
  rfl

@[simp]
theorem arcs_worker (node : Nat) : arcs [(worker node : Item α)] = [] :=
  rfl

@[simp]
theorem arcs_arc (source sink : Nat) (cost : α) :
    arcs [arc source sink cost] = [((source, sink), cost)] :=
  rfl

theorem mem_arcs_iff : ((u, v), c) ∈ arcs items ↔ arc u v c ∈ items := by
  simp only [arcs, List.mem_filterMap]
  constructor
  · rintro ⟨_ | _, hitem, ⟨⟩⟩
    exact hitem
  · exact fun h ↦ ⟨_, h, rfl⟩

theorem arcsOn_append {lines : List Nat} (h : lines.length = items.length) (line : Nat)
    (item : Item α) :
    arcsOn (lines ++ [line]) (items ++ [item]) =
      arcsOn lines items ++ (item.arcOn? line).toList := by
  rw [arcsOn, List.zip_append h, List.filterMap_append]
  cases item <;> rfl

/-- The fields of a line spell one item only. -/
theorem Spells.inj {spelling : Spelling α} {fields : List String} {item item' : Item α}
    (h : Spells spelling fields item) (h' : Spells spelling fields item') :
    item = item' := by
  cases item with
  | worker node =>
    obtain ⟨u, rfl, hu⟩ := h
    cases item' with
    | worker node' =>
      obtain ⟨_, ⟨⟩, hu'⟩ := h'
      rw [Except.ok.inj (hu.symm.trans hu')]
    | arc => simp [Spells] at h'
  | arc source sink cost =>
    obtain ⟨u, v, c, rfl, hu, hv, hc⟩ := h
    cases item' with
    | worker => simp [Spells] at h'
    | arc source' sink' cost' =>
      obtain ⟨_, _, _, ⟨⟩, hu', hv', hc'⟩ := h'
      rw [Except.ok.inj (hu.symm.trans hu'), Except.ok.inj (hv.symm.trans hv'),
        Except.ok.inj (hc.symm.trans hc')]

end Item

open FieldReader

/-! ### The problem line -/

/-- The fields are those of the problem line of an instance with `n` workers. -/
def HeadsInstance (n : Nat) (fields : List String) : Prop :=
  ∃ nodes arcs, fields = ["p", "asn", nodes, arcs] ∧
    Spelling.word.read nodes = .ok (2 * n) ∧ Spelling.word.read arcs = .ok (n * n)

/-- The problem line is read exactly if it announces the nodes and arcs of some number of
workers. -/
theorem readHeader_eq_pure_iff {entry : Entry} {header : Header} :
    readHeader entry = pure header ↔
      ∃ n, header = ⟨entry.line, n, n * n⟩ ∧ HeadsInstance n entry.allFields := by
  simp only [readHeader, Entry.run_eq_pure_iff, run_ite_eq_pure_iff, run_bind_eq_pure_iff,
    run_keyword_eq_pure_iff, run_field_eq_pure_iff, run_finish_eq_pure_iff, run_pure_eq_pure_iff,
    run_malformed_ne_pure, run_invalid_ne_pure, false_and, exists_false, and_false, or_false,
    and_assoc, exists_const, exists_and_left, exists_eq_left, Entry.allFields, HeadsInstance]
  constructor
  · rintro ⟨hkind, _, _, hfields, nodes, _, ⟨N, rfl, hN⟩, _, _, ⟨M, rfl, hM⟩, heven, rfl, rfl, rfl,
      -⟩
    have hnodes : 2 * (nodes / 2) = nodes := Nat.mul_div_cancel' (Nat.dvd_of_mod_eq_zero heven)
    exact ⟨nodes / 2, rfl, N, M, by rw [hkind, hfields], hnodes.symm ▸ hN, hM⟩
  · rintro ⟨n, rfl, N, M, hfields, hN, hM⟩
    obtain ⟨hkind, hfields⟩ := List.cons.inj hfields
    have hhalf : 2 * n / 2 = n := Nat.mul_div_cancel_left n Nat.two_pos
    exact ⟨hkind, [], _, hfields, 2 * n, _, ⟨N, rfl, hN⟩, n * n, _, ⟨M, rfl, hM⟩,
      Nat.mul_mod_right 2 n, by rw [hhalf], rfl, by rw [hhalf], rfl⟩

/-! ### One more line -/

namespace InstanceDraft

variable {α : Type} {spelling : Spelling α} {header : Header} {draft draft' : InstanceDraft α}
  {entry : Entry}

/-- A draft has room for an item, whose nodes are nodes of the instance. -/
def Admits (header : Header) (draft : InstanceDraft α) : Item α → Prop
  | .worker node => (1 ≤ node ∧ node ≤ header.nodes) ∧ draft.workers.size ≠ header.workers ∧
    node - 1 ∉ draft.workers
  | .arc source sink _ => (1 ≤ source ∧ source ≤ header.nodes) ∧ (1 ≤ sink ∧ sink ≤ header.nodes) ∧
    draft.arcs.size ≠ header.arcs

/-- The draft with the item of a line. -/
def add (line : Nat) (draft : InstanceDraft α) : Item α → InstanceDraft α
  | .worker node => { draft with workers := draft.workers.push (node - 1) }
  | .arc source sink cost =>
    { draft with arcs := draft.arcs.push { line, source := source - 1, sink := sink - 1, cost } }

/-- The fields after the kind of a worker line are read exactly if they are one node that the draft
admits. -/
theorem run_readWorker_eq_pure_iff {fields : List String} (line : Nat) :
    (∃ rest, StateT.run (draft.readWorker header) fields = pure (draft', rest)) ↔
      ∃ item, Item.Spells spelling ("n" :: fields) item ∧ draft.Admits header item ∧
        draft' = draft.add line item := by
  simp only [readWorker, checkNode, run_ite_eq_pure_iff, run_bind_eq_pure_iff,
    run_field_eq_pure_iff, run_finish_eq_pure_iff, run_pure_eq_pure_iff, run_invalid_ne_pure,
    run_liftM_eq_pure_iff, Word.sub_eq_ok_iff, false_and, exists_false, and_false, or_false,
    false_or, and_assoc, true_and, exists_const, exists_and_left, exists_eq_left, exists_eq_left']
  constructor
  · rintro ⟨_, node, _, ⟨u, rfl, hu⟩, hlow, hhigh, hroom, -, hnew, rfl, rfl, -⟩
    exact ⟨.worker node, ⟨u, rfl, hu⟩, ⟨⟨hlow, hhigh⟩, hroom, hnew⟩, rfl⟩
  · rintro ⟨node | _, hspells, hadmits, rfl⟩
    · obtain ⟨u, ⟨⟩, hu⟩ := hspells
      obtain ⟨⟨hlow, hhigh⟩, hroom, hnew⟩ := hadmits
      exact ⟨[], node, _, ⟨u, rfl, hu⟩, hlow, hhigh, hroom, hlow, hnew, rfl, rfl, rfl⟩
    · obtain ⟨_, _, _, hfields, -⟩ := hspells
      simp at hfields

/-- The fields after the kind of an arc line are read exactly if they are two nodes and a cost that
the draft admits. -/
theorem run_readArc_eq_pure_iff {fields : List String} {line : Nat} :
    (∃ rest, StateT.run (draft.readArc spelling header line) fields = pure (draft', rest)) ↔
      ∃ item, Item.Spells spelling ("a" :: fields) item ∧ draft.Admits header item ∧
        draft' = draft.add line item := by
  simp only [readArc, checkNode, run_ite_eq_pure_iff, run_bind_eq_pure_iff,
    run_field_eq_pure_iff, run_finish_eq_pure_iff, run_pure_eq_pure_iff, run_invalid_ne_pure,
    run_liftM_eq_pure_iff, Word.sub_eq_ok_iff, false_and, exists_false, and_false, or_false,
    false_or, and_assoc, true_and, exists_const, exists_and_left, exists_eq_left, exists_eq_left']
  constructor
  · rintro ⟨_, source, _, ⟨u, rfl, hu⟩, sink, _, ⟨v, rfl, hv⟩, cost, _, ⟨c, rfl, hc⟩,
      hsource, hsource', hsink, hsink', hroom, -, -, rfl, rfl, -⟩
    exact ⟨.arc source sink cost, ⟨u, v, c, rfl, hu, hv, hc⟩,
      ⟨⟨hsource, hsource'⟩, ⟨hsink, hsink'⟩, hroom⟩, rfl⟩
  · rintro ⟨_ | ⟨source, sink, cost⟩, hspells, hadmits, rfl⟩
    · obtain ⟨_, hfields, -⟩ := hspells
      simp at hfields
    · obtain ⟨u, v, c, ⟨⟩, hu, hv, hc⟩ := hspells
      obtain ⟨⟨hsource, hsource'⟩, ⟨hsink, hsink'⟩, hroom⟩ := hadmits
      exact ⟨[], source, _, ⟨u, rfl, hu⟩, sink, _, ⟨v, rfl, hv⟩, cost, _, ⟨c, rfl, hc⟩,
        hsource, hsource', hsink, hsink', hroom, hsource, hsink, rfl, rfl, rfl⟩

/-- A line is read exactly if it spells an item that the draft admits. -/
theorem readEntry_eq_pure_iff :
    draft.readEntry spelling header entry = pure draft' ↔
      ∃ item, Item.Spells spelling entry.allFields item ∧ draft.Admits header item ∧
        draft' = draft.add entry.line item := by
  obtain ⟨line, kind, fields⟩ := entry
  rw [readEntry, Entry.run_eq_pure_iff]
  dsimp only [Entry.allFields]
  split
  · exact run_readWorker_eq_pure_iff line
  · exact run_readArc_eq_pure_iff
  · refine iff_of_false (fun ⟨_, h⟩ ↦ run_malformed_ne_pure _ h) ?_
    rintro ⟨_ | _, hspells, -⟩
    · obtain ⟨_, ⟨⟩, -⟩ := hspells
      contradiction
    · obtain ⟨_, _, _, ⟨⟩, -⟩ := hspells
      contradiction

end InstanceDraft

/-! ### All lines -/

/-- The items have no more workers and arcs than an instance with `n` workers, no worker twice, and
only nodes of such an instance. -/
@[mk_iff]
structure Fits {α : Type} (n : Nat) (items : List (Item α)) : Prop where
  /-- There are not too many workers. -/
  workers_le : (Item.workers items).length ≤ n
  /-- The workers are different. -/
  workers_nodup : (Item.workers items).Nodup
  /-- The workers are nodes. -/
  mem_workers : ∀ u ∈ Item.workers items, 1 ≤ u ∧ u ≤ 2 * n
  /-- There are not too many arcs. -/
  arcs_le : (Item.arcs items).length ≤ n * n
  /-- The arcs start and end at nodes. -/
  mem_arcs : ∀ a ∈ Item.arcs items, (1 ≤ a.1.1 ∧ a.1.1 ≤ 2 * n) ∧ (1 ≤ a.1.2 ∧ a.1.2 ≤ 2 * n)

/-- The nodes of an arc, numbered from one on, and its cost. -/
def Arc.item {α : Type} (arc : Arc α) : (Nat × Nat) × α :=
  ((arc.source + 1, arc.sink + 1), arc.cost)

/-- A draft holds what some items say. -/
structure InstanceDraft.Holds {α : Type} (draft : InstanceDraft α) (items : List (Item α)) :
    Prop where
  /-- The workers of the draft are counted from zero on. -/
  workers_eq : draft.workers.toList.map (· + 1) = Item.workers items
  /-- The arcs of the draft have numbers of lines too. -/
  arcs_eq : draft.arcs.toList.map Arc.item = Item.arcs items

section Lines

variable {α : Type} {spelling : Spelling α} {n line : Nat} {items : List (Item α)} {item : Item α}
  {header : Header} {draft : InstanceDraft α} {entries : List Entry}

theorem fits_nil (n : Nat) : Fits n ([] : List (Item α)) where
  workers_le := Nat.zero_le _
  workers_nodup := .nil
  mem_workers := List.forall_mem_nil _
  arcs_le := Nat.zero_le _
  mem_arcs := List.forall_mem_nil _

theorem fits_append_worker_iff {node : Nat} : Fits n (items ++ [.worker node]) ↔
    Fits n items ∧ (Item.workers items).length < n ∧ node ∉ Item.workers items ∧
      1 ≤ node ∧ node ≤ 2 * n := by
  simp only [fits_iff, Item.workers_append, Item.workers_worker, Item.arcs_append,
    Item.arcs_worker, List.append_nil, List.length_append, List.length_singleton,
    List.nodup_append, List.mem_append, List.mem_singleton]
  grind

theorem fits_append_arc_iff {u v : Nat} {c : α} : Fits n (items ++ [.arc u v c]) ↔
    Fits n items ∧ (Item.arcs items).length < n * n ∧ (1 ≤ u ∧ u ≤ 2 * n) ∧
      (1 ≤ v ∧ v ≤ 2 * n) := by
  simp only [fits_iff, Item.workers_append, Item.workers_arc, Item.arcs_append, Item.arcs_arc,
    List.append_nil, List.length_append, List.length_singleton, List.mem_append,
    List.mem_singleton, or_imp, forall_and, forall_eq]
  grind

theorem Fits.of_append (h : Fits n (items ++ [item])) : Fits n items := by
  cases item with
  | worker node => exact (fits_append_worker_iff.1 h).1
  | arc source sink cost => exact (fits_append_arc_iff.1 h).1

namespace InstanceDraft.Holds

theorem empty : (InstanceDraft.empty : InstanceDraft α).Holds [] :=
  ⟨rfl, rfl⟩

theorem length_workers (h : draft.Holds items) :
    (Item.workers items).length = draft.workers.size := by
  rw [← h.workers_eq, List.length_map, Array.length_toList]

theorem length_arcs (h : draft.Holds items) : (Item.arcs items).length = draft.arcs.size := by
  rw [← h.arcs_eq, List.length_map, Array.length_toList]

theorem sub_one_mem_iff (h : draft.Holds items) {node : Nat} (hnode : 1 ≤ node) :
    node - 1 ∈ draft.workers ↔ node ∈ Item.workers items := by
  rw [← h.workers_eq, ← Array.mem_toList_iff, List.mem_map]
  constructor
  · exact fun hmem ↦ ⟨node - 1, hmem, Nat.sub_add_cancel hnode⟩
  · rintro ⟨w, hw, rfl⟩
    exact hw

/-- A draft that admits an item holds it once it is added. -/
theorem add (h : draft.Holds items) (hadmits : draft.Admits header item) (line : Nat) :
    (draft.add line item).Holds (items ++ [item]) := by
  cases item with
  | worker node =>
    exact ⟨by simp [InstanceDraft.add, h.workers_eq, Nat.sub_add_cancel hadmits.1.1],
      by simp [InstanceDraft.add, h.arcs_eq]⟩
  | arc source sink cost =>
    exact ⟨by simp [InstanceDraft.add, h.workers_eq], by simp [InstanceDraft.add, h.arcs_eq,
      Arc.item, Nat.sub_add_cancel hadmits.1.1, Nat.sub_add_cancel hadmits.2.1.1]⟩

/-- A draft of items that fit admits those with which they still fit. -/
theorem admits_iff (h : draft.Holds items) (hfits : Fits n items) :
    draft.Admits ⟨line, n, n * n⟩ item ↔ Fits n (items ++ [item]) := by
  cases item with
  | worker node =>
    rw [fits_append_worker_iff, h.length_workers]
    constructor
    · rintro ⟨hnode, hroom, hnew⟩
      have hle := h.length_workers ▸ hfits.workers_le
      exact ⟨hfits, Nat.lt_of_le_of_ne hle hroom, mt (h.sub_one_mem_iff hnode.1).2 hnew, hnode⟩
    · rintro ⟨-, hroom, hnew, hnode⟩
      exact ⟨hnode, Nat.ne_of_lt hroom, mt (h.sub_one_mem_iff hnode.1).1 hnew⟩
  | arc source sink cost =>
    rw [fits_append_arc_iff, h.length_arcs]
    constructor
    · rintro ⟨hsource, hsink, hroom⟩
      have hle := h.length_arcs ▸ hfits.arcs_le
      exact ⟨hfits, Nat.lt_of_le_of_ne hle hroom, hsource, hsink⟩
    · rintro ⟨-, hroom, hsource, hsink⟩
      exact ⟨hsource, hsink, Nat.ne_of_lt hroom⟩

end InstanceDraft.Holds

/-- The items of a list and one more are those of the lines before the last and that of the last. -/
theorem forall₂_append_singleton_iff {β γ : Type} {R : β → γ → Prop} {xs : List β} {x : β}
    {ys : List γ} : List.Forall₂ R (xs ++ [x]) ys ↔
      ∃ ys' y, ys = ys' ++ [y] ∧ List.Forall₂ R xs ys' ∧ R x y := by
  constructor
  · intro h
    induction xs generalizing ys with
    | nil =>
      obtain ⟨y, ys, hy, ⟨⟩, rfl⟩ := List.forall₂_cons_left_iff.1 h
      exact ⟨[], y, rfl, .nil, hy⟩
    | cons z zs ih =>
      obtain ⟨y, ys, hy, hys, rfl⟩ := List.forall₂_cons_left_iff.1 h
      obtain ⟨ys', y', rfl, hzs, hx⟩ := ih hys
      exact ⟨y :: ys', y', rfl, .cons hy hzs, hx⟩
  · rintro ⟨ys, y, rfl, hys, hy⟩
    exact List.rel_append hys (.cons hy .nil)

theorem exists_of_forall₂_of_mem {β γ : Type} {R : β → γ → Prop} {xs : List β} {ys : List γ} {y : γ}
    (h : List.Forall₂ R xs ys) (hy : y ∈ ys) : ∃ x ∈ xs, R x y := by
  induction h with
  | nil => exact absurd hy List.not_mem_nil
  | cons hxy _ ih =>
    rcases List.mem_cons.1 hy with rfl | hy
    · exact ⟨_, List.mem_cons_self, hxy⟩
    · obtain ⟨x, hx, hxy⟩ := ih hy
      exact ⟨x, List.mem_cons_of_mem _ hx, hxy⟩

/-- The lines that are read one after the other spell items that fit. -/
theorem exists_items_of_foldlM
    (h : entries.foldlM (InstanceDraft.readEntry spelling ⟨line, n, n * n⟩) .empty = pure draft) :
    ∃ items, List.Forall₂ (Item.Spells spelling) (entries.map Entry.allFields) items ∧
      Fits n items ∧ draft.Holds items := by
  induction entries using List.reverseRecOn generalizing draft with
  | nil =>
    obtain rfl := Reading.pure_eq_pure_iff.1 h
    exact ⟨[], .nil, fits_nil n, .empty⟩
  | append_singleton entries entry ih =>
    rw [List.foldlM_append, Reading.bind_eq_pure_iff] at h
    obtain ⟨before, hbefore, hlast⟩ := h
    obtain ⟨items, hspells, hfits, hholds⟩ := ih hbefore
    rw [List.foldlM_cons, Reading.bind_eq_pure_iff] at hlast
    obtain ⟨after, hafter, heq⟩ := hlast
    obtain rfl := Reading.pure_eq_pure_iff.1 heq
    obtain ⟨item, hitem, hadmits, rfl⟩ := InstanceDraft.readEntry_eq_pure_iff.1 hafter
    refine ⟨items ++ [item], ?_, (hholds.admits_iff hfits).1 hadmits, hholds.add hadmits entry.line⟩
    rw [List.map_append, List.map_singleton]
    exact forall₂_append_singleton_iff.2 ⟨items, item, rfl, hspells, hitem⟩

/-- Lines that spell items that fit are read. -/
theorem exists_draft_of_fits
    (hspells : List.Forall₂ (Item.Spells spelling) (entries.map Entry.allFields) items)
    (hfits : Fits n items) :
    ∃ draft, entries.foldlM (InstanceDraft.readEntry spelling ⟨line, n, n * n⟩) .empty =
      pure draft ∧ draft.Holds items := by
  induction entries using List.reverseRecOn generalizing items with
  | nil =>
    obtain rfl := List.forall₂_nil_left_iff.1 hspells
    exact ⟨.empty, rfl, .empty⟩
  | append_singleton entries entry ih =>
    rw [List.map_append, List.map_singleton, forall₂_append_singleton_iff] at hspells
    obtain ⟨items, item, rfl, hspells, hitem⟩ := hspells
    obtain ⟨before, hbefore, hholds⟩ := ih hspells hfits.of_append
    have hadmits : before.Admits ⟨line, n, n * n⟩ item :=
      (hholds.admits_iff hfits.of_append).2 hfits
    refine ⟨before.add entry.line item, ?_, hholds.add hadmits entry.line⟩
    rw [List.foldlM_append, hbefore, pure_bind, List.foldlM_cons,
      InstanceDraft.readEntry_eq_pure_iff.2 ⟨item, hitem, hadmits, rfl⟩, pure_bind, List.foldlM_nil]

/-- The arcs of a draft that has been read have the numbers of their lines. -/
theorem toList_arcs_of_foldlM {header : Header} {draft : InstanceDraft α} {entries : List Entry}
    (h : entries.foldlM (InstanceDraft.readEntry spelling header) .empty = pure draft)
    (hspells : List.Forall₂ (Item.Spells spelling) (entries.map Entry.allFields) items) :
    draft.arcs.toList = Item.arcsOn (entries.map Entry.line) items := by
  induction entries using List.reverseRecOn generalizing draft items with
  | nil =>
    obtain rfl := Reading.pure_eq_pure_iff.1 h
    rfl
  | append_singleton entries entry ih =>
    rw [List.map_append, List.map_singleton, forall₂_append_singleton_iff] at hspells
    obtain ⟨items, item, rfl, hspells, hitem⟩ := hspells
    simp only [List.foldlM_append, List.foldlM_cons, List.foldlM_nil, Reading.bind_eq_pure_iff,
      Reading.pure_eq_pure_iff, exists_eq_right, InstanceDraft.readEntry_eq_pure_iff] at h
    obtain ⟨before, hbefore, item', hitem', -, rfl⟩ := h
    obtain rfl := hitem.inj hitem'
    have hlength : (entries.map Entry.line).length = items.length := by
      rw [← hspells.length_eq, List.length_map, List.length_map]
    rw [List.map_append, List.map_singleton, Item.arcsOn_append hlength, ← ih hbefore hspells]
    cases item <;> simp [InstanceDraft.add, Item.arcOn?]

end Lines

end LinearAssignment.Dimacs
