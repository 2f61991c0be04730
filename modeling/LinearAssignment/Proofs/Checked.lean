import LinearAssignment.Fault
import LinearAssignment.Grid
import Mathlib.Data.Fintype.Card
import Mathlib.Data.List.Induction

/-!
# Checked computations over tables

How a checked computation over a whole table or list goes when each of its parts is known. A table
or grid is built without a fault exactly if each of its entries is (`Table.ofFnM_eq_ok`,
`Grid.ofFnM_eq_ok`), and where all entries that fail do so with one fault, that fault is the
result (`Table.ofFnM_eq_error`). A fold keeps what each of its rounds keeps, and the rounds may
say which part of the list they have passed (`Checked.foldlM_induction`).
-/

namespace LinearAssignment

namespace Checked

variable {α β : Type}

@[simp]
theorem ok_bind (a : α) (f : α → Checked β) : (Except.ok a >>= f : Checked β) = f a :=
  rfl

@[simp]
theorem error_bind (e : Fault) (f : α → Checked β) :
    (Except.error e >>= f : Checked β) = .error e :=
  rfl

theorem pure_eq_ok (a : α) : (pure a : Checked α) = .ok a :=
  rfl

/-- A bind gives a value only if both of its parts do. -/
theorem bind_eq_ok_iff {x : Checked α} {f : α → Checked β} {b : β} :
    (x >>= f : Checked β) = .ok b ↔ ∃ a, x = .ok a ∧ f a = .ok b := by
  cases x with
  | ok a => simp
  | error e => simp

/-- What is read off a result is read off a value that the computation gives. -/
theorem map_eq_ok_iff {x : Checked α} {f : α → β} {b : β} :
    x.map f = .ok b ↔ ∃ a, x = .ok a ∧ f a = b := by
  cases x with
  | ok a => simp [Except.map]
  | error e => simp [Except.map]

/-- A list is mapped without a fault if each of its members is. -/
theorem mapM_eq_ok {f : α → Checked β} {g : α → β} {xs : List α}
    (h : ∀ x ∈ xs, f x = .ok (g x)) : xs.mapM f = .ok (xs.map g) := by
  induction xs with
  | nil => rfl
  | cons x xs ih =>
    obtain ⟨hx, hxs⟩ := List.forall_mem_cons.1 h
    rw [List.mapM_cons, hx, ok_bind, ih hxs, ok_bind]
    rfl

/-- What holds before a fold and is kept by each round holds after it, and the fold has no fault if
no round has. The property may mention the part of the list that has been passed. -/
theorem foldlM_induction {f : β → α → Checked β} {P : List α → β → Prop} {xs : List α} {b : β}
    (hstart : P [] b)
    (hround : ∀ before x after b, xs = before ++ x :: after → P before b →
      ∃ b', f b x = .ok b' ∧ P (before ++ [x]) b') :
    ∃ b', xs.foldlM f b = .ok b' ∧ P xs b' := by
  -- from the end of the list, so that the property of a whole prefix is at hand
  induction xs using List.reverseRecOn with
  | nil => exact ⟨b, rfl, hstart⟩
  | append_singleton xs x ih =>
    obtain ⟨b₁, hxs, hb₁⟩ := ih fun before y after b heq ↦
      hround before y (after ++ [x]) b (by rw [heq, List.append_assoc, List.cons_append])
    obtain ⟨b₂, hx, hb₂⟩ := hround xs x [] b₁ rfl hb₁
    refine ⟨b₂, ?_, hb₂⟩
    rw [List.foldlM_append, hxs, ok_bind, List.foldlM_cons, hx, ok_bind, List.foldlM_nil,
      pure_eq_ok]

end Checked

namespace Table

variable {n : Nat} {α : Type}

/-- A table is built without a fault if each of its entries is. -/
theorem ofFnM_eq_ok {f : Fin n → Checked α} {g : Fin n → α} (h : ∀ i, f i = .ok (g i)) :
    Vector.ofFnM f = .ok (Vector.ofFn g) := by
  have hf : f = fun i ↦ pure (g i) := funext h
  rw [hf]
  exact Vector.ofFnM_pure

/-- If all entries that fail do so with the same fault, building the table ends with it. -/
theorem ofFnM_eq_error {e : Fault} {f : Fin n → Checked α}
    (h : ∀ i, f i = .error e ∨ ∃ a, f i = .ok a) {i : Fin n} (hi : f i = .error e) :
    Vector.ofFnM f = .error e := by
  induction n with
  | zero => exact i.elim0
  | succ n ih =>
    rw [Vector.ofFnM_succ]
    by_cases hinit : ∃ j : Fin n, f j.castSucc = .error e
    · obtain ⟨j, hj⟩ := hinit
      rw [ih (fun k ↦ h k.castSucc) hj]
      rfl
    · -- all entries before the last are there, so the last one fails
      have hok : ∀ j : Fin n, ∃ a, f j.castSucc = .ok a := fun j ↦
        (h j.castSucc).resolve_left fun hj ↦ hinit ⟨j, hj⟩
      choose g hg using hok
      have hlast : f (Fin.last n) = .error e := by
        rcases Fin.eq_castSucc_or_eq_last i with ⟨j, rfl⟩ | rfl
        · exact absurd ⟨j, hi⟩ hinit
        · exact hi
      rw [ofFnM_eq_ok hg, Checked.ok_bind, hlast, Checked.error_bind]

/-- A table is built exactly if each of its entries is. -/
theorem ofFnM_eq_ok_iff {ε : Type} {f : Fin n → Except ε α} {t : Table n α} :
    Vector.ofFnM f = .ok t ↔ ∀ i, f i = .ok (t.entry i) := by
  constructor
  · intro h
    induction n with
    | zero => exact fun i ↦ i.elim0
    | succ n ih =>
      rw [Vector.ofFnM_succ] at h
      cases hinit : Vector.ofFnM fun i : Fin n ↦ f i.castSucc with
      | error e =>
        rw [hinit] at h
        cases h
      | ok init =>
        cases hlast : f (Fin.last n) with
        | error e =>
          rw [hinit, hlast] at h
          cases h
        | ok c =>
          rw [hinit, hlast] at h
          obtain rfl : init.push c = t := Except.ok.inj h
          refine Fin.lastCases ?_ fun i ↦ ?_
          · simpa [entry] using hlast
          · simpa [entry, Vector.getElem_push_lt i.isLt] using ih hinit i
  · intro h
    have hf : f = fun i ↦ pure (t.entry i) := funext h
    rw [hf, Vector.ofFnM_pure]
    exact congrArg Except.ok (ext_entry fun i ↦ entry_ofFn _ i)

@[simp]
theorem entry_replicate (c : α) (i : Fin n) : entry (Vector.replicate n c) i = c := by
  simp [entry]

/-- The entries of a table in order. -/
theorem toList_eq_map_entry (t : Table n α) : t.toList = (List.finRange n).map t.entry := by
  refine List.ext_getElem (by simp) fun k _ _ ↦ ?_
  simp [entry]

theorem mem_toList_iff {t : Table n α} {c : α} : c ∈ t.toList ↔ ∃ i, t.entry i = c := by
  simp [toList_eq_map_entry]

end Table

namespace Grid

variable {n : Nat} {α : Type}

/-- A grid is built without a fault if each of its entries is. -/
theorem ofFnM_eq_ok {f : Fin n → Fin n → Checked α} {g : Fin n → Fin n → α}
    (h : ∀ i j, f i j = .ok (g i j)) : Grid.ofFnM f = .ok (Grid.ofFn g) :=
  Table.ofFnM_eq_ok fun i ↦ Table.ofFnM_eq_ok (h i)

end Grid

/-- The positions of a table that pass a test are as many as the test counts. -/
theorem length_filter_finRange {n : Nat} (p : Fin n → Bool) :
    ((List.finRange n).filter p).length = (Finset.univ.filter fun i ↦ p i = true).card := by
  rw [Fin.univ_def]
  simp [Finset.filter, Finset.card]

end LinearAssignment
