import LinearAssignment.Dimacs.Error
import LinearAssignment.Proofs.Readings

/-!
# The first row with an issue

The rows of a file are checked one after the other, and what is wrong with a row may depend on the
rows before it. Either no row has an issue (`Passes`), or there is a first one that has
(`FirstIssue`, `passes_or_exists_firstIssue`).

A loop over the rows remembers those before the current row in a state. If that is enough to find
the issue of a row (`FindsIssues`), the loop goes through exactly if the rows pass, and otherwise it
ends with the first issue, on the line of its row (`FindsIssues.exists_foldlM`,
`FindsIssues.foldlM_eq_throw`).
-/

namespace LinearAssignment.Dimacs

variable {ρ σ : Type} {issue? : List ρ → ρ → Option DataIssue} {rows after : List ρ} {row : ρ}
  {issue : DataIssue}

/-- No row has an issue in view of the rows before it. -/
def Passes (issue? : List ρ → ρ → Option DataIssue) (rows : List ρ) : Prop :=
  ∀ before row after, rows = before ++ row :: after → issue? before row = none

/-- A row has an issue, and the rows before it have none. -/
def FirstIssue (issue? : List ρ → ρ → Option DataIssue) (rows : List ρ) (row : ρ)
    (issue : DataIssue) : Prop :=
  ∃ before after, rows = before ++ row :: after ∧ Passes issue? before ∧
    issue? before row = some issue

theorem passes_nil (issue? : List ρ → ρ → Option DataIssue) : Passes issue? [] := by
  intro before row after h
  simp at h

theorem Passes.of_append (h : Passes issue? (rows ++ after)) : Passes issue? rows := by
  rintro before row rest rfl
  exact h before row (rest ++ after) (by rw [List.append_assoc, List.cons_append])

/-- Rows pass with one more row exactly if they do so without it and it has no issue. -/
theorem passes_append_singleton_iff :
    Passes issue? (rows ++ [row]) ↔ Passes issue? rows ∧ issue? rows row = none := by
  constructor
  · exact fun h ↦ ⟨h.of_append, h rows row [] rfl⟩
  · rintro ⟨hrows, hrow⟩ before row' after h
    rcases List.eq_nil_or_concat after with rfl | ⟨after, last, rfl⟩
    · obtain ⟨rfl, hlast⟩ := List.append_inj' h rfl
      obtain rfl := List.singleton_inj.1 hlast
      exact hrow
    · have hlast : rows ++ [row] = (before ++ row' :: after) ++ [last] := by
        rw [h, List.concat_eq_append, List.append_assoc, List.cons_append]
      exact hrows before row' after (List.append_inj' hlast rfl).1

theorem passes_or_exists_firstIssue (issue? : List ρ → ρ → Option DataIssue) (rows : List ρ) :
    Passes issue? rows ∨ ∃ row issue, FirstIssue issue? rows row issue := by
  induction rows using List.reverseRecOn with
  | nil => exact .inl (passes_nil issue?)
  | append_singleton rows last ih =>
    rcases ih with hpasses | ⟨row, issue, before, after, rfl, hfirst⟩
    · cases hissue : issue? rows last with
      | none => exact .inl (passes_append_singleton_iff.2 ⟨hpasses, hissue⟩)
      | some issue => exact .inr ⟨last, issue, rows, [], rfl, hpasses, hissue⟩
    · exact .inr ⟨row, issue, before, after ++ [last], by simp, hfirst⟩

/-- Rows with a first issue do not pass. -/
theorem FirstIssue.not_passes (h : FirstIssue issue? rows row issue) : ¬ Passes issue? rows := by
  obtain ⟨before, after, rfl, -, hissue⟩ := h
  intro hpasses
  rw [hpasses before row after rfl] at hissue
  cases hissue

/-! ### Loops -/

/-- A round of a loop finds the issue of its row, if there is one, because the state remembers the
rows before. -/
structure FindsIssues (issue? : List ρ → ρ → Option DataIssue) (line : ρ → Nat)
    (remembers : σ → List ρ → Prop) (start : σ) (round : σ → ρ → Reading σ) (rows : List ρ) :
    Prop where
  /-- At the start there are no rows to remember. -/
  start : remembers start []
  /-- The issue of a row is reported on its line. -/
  round_eq_throw : ∀ before, ∀ row ∈ rows, ∀ state issue, remembers state before →
    issue? before row = some issue → round state row = throw (.onLine (line row) (.data issue))
  /-- A row without an issue is remembered. -/
  exists_round : ∀ before, ∀ row ∈ rows, ∀ state, remembers state before →
    issue? before row = none → ∃ state', round state row = pure state' ∧
      remembers state' (before ++ [row])

namespace FindsIssues

variable {line : ρ → Nat} {remembers : σ → List ρ → Prop} {start : σ} {round : σ → ρ → Reading σ}

theorem of_append (h : FindsIssues issue? line remembers start round (rows ++ after)) :
    FindsIssues issue? line remembers start round rows where
  start := h.start
  round_eq_throw before row hrow := h.round_eq_throw before row (List.mem_append_left _ hrow)
  exists_round before row hrow := h.exists_round before row (List.mem_append_left _ hrow)

/-- A loop goes through rows that pass, and remembers all of them. -/
theorem exists_foldlM (h : FindsIssues issue? line remembers start round rows)
    (hpasses : Passes issue? rows) :
    ∃ state, rows.foldlM round start = pure state ∧ remembers state rows := by
  induction rows using List.reverseRecOn with
  | nil => exact ⟨start, rfl, h.start⟩
  | append_singleton rows row ih =>
    obtain ⟨hrows, hrow⟩ := passes_append_singleton_iff.1 hpasses
    obtain ⟨state, hstate, hremembers⟩ := ih h.of_append hrows
    obtain ⟨state', hstate', hremembers'⟩ := h.exists_round rows row (by simp) state hremembers hrow
    exact ⟨state', by rw [List.foldlM_append, hstate, pure_bind, List.foldlM_cons, hstate',
      pure_bind, List.foldlM_nil], hremembers'⟩

/-- A loop ends with the first issue. -/
theorem foldlM_eq_throw (h : FindsIssues issue? line remembers start round rows)
    (hfirst : FirstIssue issue? rows row issue) :
    rows.foldlM round start = throw (.onLine (line row) (.data issue)) := by
  obtain ⟨before, after, rfl, hpasses, hissue⟩ := hfirst
  obtain ⟨state, hstate, hremembers⟩ := h.of_append.exists_foldlM hpasses
  rw [List.foldlM_append, hstate, pure_bind, List.foldlM_cons,
    h.round_eq_throw before row (by simp) state issue hremembers hissue, Reading.throw_bind]

end FindsIssues

end LinearAssignment.Dimacs
