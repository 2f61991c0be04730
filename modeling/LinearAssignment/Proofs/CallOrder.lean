import LinearAssignment.Proofs.CostMatrix.Views
import LinearAssignment.Proofs.Optimality

/-!
# The order of calls

A cost function may have a state and may fail. `stateAfter` is its state after it has been called on
the first cells in row-major order, and `answerAt` is what it answers at a cell then; both do not
depend on how the program goes through the cells. A grid of costs is built by just these calls up to
the first that fails (`run_ofFnM_eq_ok`, `run_ofFnM_eq_error`), by induction on the place of a cell
in the order (`Grid.place_induction`).

Before the first call, room is made for all costs. If they have more bytes than a vector may have,
no call is made (`run_assignByM_of_full`); this depends on the size and the cost type alone.

Calls are counted by a function that notes on which cells it is called (`noting`). It has the same
answers, so what holds of all cost functions says of this one which calls are made (`EndsAfter`).
-/

namespace LinearAssignment

variable {n k : Nat} {ε σ τ α β : Type} {i j : Fin n}

namespace Grid

/-- One cell after the other is reached from the first. -/
@[elab_as_elim]
theorem place_induction {P : Nat → Prop} (hk : k ≤ n * n) (zero : P 0)
    (succ : ∀ i j : Fin n, P (i.val * n + j.val) → P (i.val * n + j.val + 1)) : P k := by
  induction k with
  | zero => exact zero
  | succ k ih =>
    obtain ⟨i, hi, j, hj, rfl⟩ := exists_index_eq hk
    exact succ ⟨i, hi⟩ ⟨j, hj⟩ (ih (Nat.le_of_succ_le hk))

/-- A cell comes next after as many cells as its place. -/
theorem take_cells_succ (i j : Fin n) : (cells n).take (i.val * n + j.val + 1) =
    (cells n).take (i.val * n + j.val) ++ [(i, j)] := by
  rw [List.take_add_one, getElem?_cells]
  rfl

theorem take_cells (n : Nat) : (cells n).take (n * n) = cells n :=
  List.take_of_length_le (Nat.le_of_eq (length_cells n))

/-- The entries of a grid are those at its cells. -/
theorem entries_eq_map (g : Grid n α) : g.entries = (cells n).map fun c ↦ g.cell c.1 c.2 := by
  rw [← entries_ofFn]
  exact congrArg entries (ext_cell fun i j ↦ (cell_ofFn _ i j).symm)

/-- The cells are those before a cell, the cell itself, and others. -/
theorem exists_cells_eq (i j : Fin n) :
    ∃ after, cells n = (cells n).take (i.val * n + j.val) ++ (i, j) :: after :=
  ⟨(cells n).drop (i.val * n + j.val + 1), by
    rw [List.append_cons, ← take_cells_succ, List.take_append_drop]⟩

end Grid

/-! ### Calls -/

/-- The state after a stateful function has been called on the first `k` cells in row-major
order. -/
def stateAfter (call : Fin n → Fin n → StateM σ β) (s : σ) (k : Nat) : σ :=
  ((Grid.cells n).take k).foldl (fun s c ↦ ((call c.1 c.2).run s).2) s

/-- What a stateful function answers at a cell, after it has been called on all cells before. -/
def answerAt (call : Fin n → Fin n → StateM σ β) (s : σ) (i j : Fin n) : β :=
  ((call i j).run (stateAfter call s (i.val * n + j.val))).1

/-- The calls of a cost function, of which some may be answered with an error. -/
def calls (cost : Fin n → Fin n → ExceptT ε (StateM σ) α) (i j : Fin n) : StateM σ (Except ε α) :=
  (cost i j).run

theorem stateAfter_succ (call : Fin n → Fin n → StateM σ β) (s : σ) (i j : Fin n) :
    stateAfter call s (i.val * n + j.val + 1) =
      ((call i j).run (stateAfter call s (i.val * n + j.val))).2 := by
  rw [stateAfter, Grid.take_cells_succ, List.foldl_append]
  rfl

/-- A cell is called after all cells before. -/
theorem run_eq (call : Fin n → Fin n → StateM σ β) (s : σ) (i j : Fin n) :
    (call i j).run (stateAfter call s (i.val * n + j.val)) =
      (answerAt call s i j, stateAfter call s (i.val * n + j.val + 1)) :=
  Prod.ext rfl (stateAfter_succ call s i j).symm

/-! ### Runs -/

section Runs

variable {x : ExceptT ε (StateM σ) α} {f : α → ExceptT ε (StateM σ) β} {s s' : σ}

theorem run_bind_of_ok {a : α} (h : x.run.run s = (.ok a, s')) :
    (x >>= f).run.run s = (f a).run.run s' := by
  rw [ExceptT.run_bind, StateT.run_bind, h]
  rfl

theorem run_bind_of_error {e : ε} (h : x.run.run s = (.error e, s')) :
    (x >>= f).run.run s = (.error e, s') := by
  rw [ExceptT.run_bind, StateT.run_bind, h]
  rfl

theorem run_bind_of_eq {y : StateM σ α} {g : α → StateM σ β} {a : α} (h : y.run s = (a, s')) :
    (y >>= g).run s = (g a).run s' := by
  rw [StateT.run_bind, h]
  rfl

theorem run_map (x : ExceptT ε (StateM σ) α) (g : α → β) (s : σ) :
    (g <$> x).run.run s = ((x.run.run s).1.map g, (x.run.run s).2) := by
  rw [ExceptT.run_map, StateT.run_map]
  rfl

/-- A run is determined by the run that changes its value in a way that can be undone. -/
theorem run_eq_of_run_map {g : α → β} (hg : Function.Injective g) {r : Except ε α}
    (h : (g <$> x).run.run s = (r.map g, s')) : x.run.run s = (r, s') := by
  rw [run_map] at h
  obtain ⟨hresult, hstate⟩ := Prod.mk.inj h
  refine Prod.ext ?_ hstate
  cases hx : (x.run.run s).1 with
  | error e =>
    rw [hx] at hresult
    cases r with
    | error e' => exact congrArg Except.error (Except.error.inj hresult)
    | ok a => cases hresult
  | ok a =>
    rw [hx] at hresult
    cases r with
    | error e => cases hresult
    | ok a' => exact congrArg Except.ok (hg (Except.ok.inj hresult))

end Runs

section Fallible

variable {cost : Fin n → Fin n → ExceptT ε (StateM σ) α} {s : σ}

/-- As long as no call fails, one cell after the other is called. -/
theorem run_mapM_take_eq_ok {value : Fin n → Fin n → α} (hk : k ≤ n * n)
    (h : ∀ i j : Fin n, i.val * n + j.val < k →
      answerAt (calls cost) s i j = .ok (value i j)) :
    (((Grid.cells n).take k).mapM fun c ↦ cost c.1 c.2).run.run s =
      (.ok (((Grid.cells n).take k).map fun c ↦ value c.1 c.2),
        stateAfter (calls cost) s k) := by
  revert h
  refine Grid.place_induction hk (fun _ ↦ rfl) fun i j ih h ↦ ?_
  have hbefore := ih fun i' j' hlt ↦ h i' j' (Nat.lt_succ_of_lt hlt)
  have hlast := run_eq (calls cost) s i j
  rw [h i j (Nat.lt_succ_self _)] at hlast
  rw [Grid.take_cells_succ, List.mapM_append, run_bind_of_ok hbefore, List.mapM_cons, bind_assoc,
    run_bind_of_ok hlast, List.map_append]
  rfl

/-- A grid is built if no call fails. -/
theorem run_ofFnM_eq_ok {g : Grid n α}
    (h : ∀ i j, answerAt (calls cost) s i j = .ok (g.cell i j)) :
    (Grid.ofFnM cost).run.run s = (.ok g, stateAfter (calls cost) s (n * n)) := by
  have hrun := run_mapM_take_eq_ok (Nat.le_refl (n * n)) fun i j _ ↦ h i j
  rw [Grid.take_cells, ← Grid.map_entries_ofFnM, ← Grid.entries_eq_map] at hrun
  exact run_eq_of_run_map Grid.entries_injective hrun

/-- The first call that fails is the last one. -/
theorem run_ofFnM_eq_error [Inhabited α] {e : ε} (he : answerAt (calls cost) s i j = .error e)
    (h : ∀ i' j' : Fin n, i'.val * n + j'.val < i.val * n + j.val →
      ∃ c, answerAt (calls cost) s i' j' = .ok c) :
    (Grid.ofFnM cost).run.run s =
      (.error e, stateAfter (calls cost) s (i.val * n + j.val + 1)) := by
  have hvalue (i' j' : Fin n) : ∃ v, i'.val * n + j'.val < i.val * n + j.val →
      answerAt (calls cost) s i' j' = .ok v := by
    by_cases hlt : i'.val * n + j'.val < i.val * n + j.val
    · exact (h i' j' hlt).imp fun _ hv _ ↦ hv
    · exact ⟨default, fun hlt' ↦ absurd hlt' hlt⟩
  choose value hvalue using hvalue
  have hbefore := run_mapM_take_eq_ok (CostMatrix.index_lt i j).le hvalue
  have hlast := run_eq (calls cost) s i j
  rw [he] at hlast
  obtain ⟨after, hcells⟩ := Grid.exists_cells_eq i j
  refine run_eq_of_run_map Grid.entries_injective ?_
  rw [Grid.map_entries_ofFnM, hcells, List.mapM_append, run_bind_of_ok hbefore, List.mapM_cons,
    bind_assoc, run_bind_of_error hlast]
  rfl

end Fallible

section Infallible

variable {cost : Fin n → Fin n → StateM σ α} {s : σ} {g : Grid n α}

/-- One cell after the other is called. -/
theorem run_mapM_take_eq (hk : k ≤ n * n) (h : ∀ i j, answerAt cost s i j = g.cell i j) :
    (((Grid.cells n).take k).mapM fun c ↦ cost c.1 c.2).run s =
      (((Grid.cells n).take k).map fun c ↦ g.cell c.1 c.2, stateAfter cost s k) := by
  refine Grid.place_induction hk rfl fun i j ih ↦ ?_
  have hlast := run_eq cost s i j
  rw [h i j] at hlast
  rw [Grid.take_cells_succ, List.mapM_append, run_bind_of_eq ih, List.mapM_cons, bind_assoc,
    run_bind_of_eq hlast, List.map_append]
  rfl

/-- A grid is built if no call can fail. -/
theorem run_ofFnM_eq (h : ∀ i j, answerAt cost s i j = g.cell i j) :
    (Grid.ofFnM cost).run s = (g, stateAfter cost s (n * n)) := by
  have hrun := run_mapM_take_eq (Nat.le_refl (n * n)) h
  rw [Grid.take_cells, ← Grid.map_entries_ofFnM, ← Grid.entries_eq_map, StateT.run_map] at hrun
  obtain ⟨hgrid, hstate⟩ := Prod.mk.inj hrun
  exact Prod.ext (Grid.entries_injective hgrid) hstate

end Infallible

/-! ### Assignments -/

section Room

variable {W : CostType} (hlength : n * n < 0x8000000000000000)

include hlength in
theorem CostMatrix.reserve_eq_ok (hroom : n * n * W.width < 0x8000000000000000) :
    reserve n W.width = .ok () :=
  (reserve_eq_ok_iff (hlength.trans (by decide))).2 hroom

include hlength in
theorem CostMatrix.reserve_eq_capacity (hfull : 0x8000000000000000 ≤ n * n * W.width) :
    reserve n W.width = .error .capacity :=
  reserve_eq_error (hlength.trans (by decide)) hfull

variable {m : Type → Type} [Monad m] [LawfulMonad m]

include hlength in
/-- With a cost function, a grid is built and solved. -/
theorem run_assignByM (hroom : n * n * W.width < 0x8000000000000000)
    (cost : Fin n → Fin n → m Int) :
    (assignByM W n cost).run = (fun g ↦ assign W ⟨n, g⟩) <$> Grid.ofFnM cost := by
  have hpure : (ExceptT.mk (pure (.ok ())) : ExceptT Fault m Unit) = pure () := rfl
  rw [assignByM, CostMatrix.ofFnM, CostMatrix.reserve_eq_ok hlength hroom, hpure]
  simp only [pure_bind, bind_assoc, ExceptT.run_bind_lift, map_eq_pure_bind]
  rfl

include hlength in
/-- Without room, a cost function has no effect. -/
theorem run_assignByM_of_full (hfull : 0x8000000000000000 ≤ n * n * W.width)
    (cost : Fin n → Fin n → m Int) : (assignByM W n cost).run = pure (.error .capacity) := by
  rw [assignByM, CostMatrix.ofFnM, CostMatrix.reserve_eq_capacity hlength hfull]
  simp [ExceptT.run_bind]

end Room

/-- A stateful function that also notes on which cells it is called. -/
def noted (call : Fin n → Fin n → StateM σ β) (i j : Fin n) :
    StateM (σ × List (Fin n × Fin n)) β := fun (s, log) ↦
  let (b, s') := (call i j).run s
  pure (b, s', log ++ [(i, j)])

/-- A cost function that may fail and that also notes on which cells it is called. -/
def noting (cost : Fin n → Fin n → ExceptT ε (StateM σ) α) (i j : Fin n) :
    ExceptT ε (StateM (σ × List (Fin n × Fin n))) α :=
  ExceptT.mk (noted (calls cost) i j)

/-- Noting the cells does not change the state, and the first cells are noted in order. -/
theorem stateAfter_noted (call : Fin n → Fin n → StateM σ β) (s : σ) (hk : k ≤ n * n) :
    stateAfter (noted call) (s, []) k = (stateAfter call s k, (Grid.cells n).take k) := by
  refine Grid.place_induction hk rfl fun i j ih ↦ ?_
  rw [stateAfter_succ, ih, stateAfter_succ, Grid.take_cells_succ]
  rfl

theorem answerAt_noted (call : Fin n → Fin n → StateM σ β) (s : σ) (i j : Fin n) :
    answerAt (noted call) (s, []) i j = answerAt call s i j := by
  rw [answerAt, stateAfter_noted call s (CostMatrix.index_lt i j).le]
  rfl

/-- The search for an assignment ends with a result after the first `k` cells have been called in
row-major order, each once, and no others. -/
structure EndsAfter (W : CostType) (cost : Fin n → Fin n → ExceptT ε (StateM σ) Int) (s : σ)
    (k : Nat) (result : Except ε (Checked (List Nat))) : Prop where
  /-- The result, and the state in which the cost function is left. -/
  run_eq : (assignByM W n cost).run.run.run s = (result, stateAfter (calls cost) s k)
  /-- The cells that are noted. -/
  run_noting_eq : (assignByM W n (noting cost)).run.run.run (s, []) =
    (result, stateAfter (calls cost) s k, (Grid.cells n).take k)
  /-- There are `k` calls. -/
  length_eq : ((Grid.cells n).take k).length = k
  /-- No cell is called twice. -/
  nodup : ((Grid.cells n).take k).Nodup

section Results

variable {W : CostType} {cost : Fin n → Fin n → ExceptT ε (StateM σ) Int} {s : σ} {g : Grid n Int}
  (hlength : n * n < 0x8000000000000000)

include hlength in
/-- Without room, the fault is the result, and no cell is called. -/
theorem endsAfter_capacity (hfull : 0x8000000000000000 ≤ n * n * W.width) :
    EndsAfter W cost s 0 (.ok (.error .capacity)) where
  run_eq := by
    rw [run_assignByM_of_full hlength hfull]
    rfl
  run_noting_eq := by
    rw [run_assignByM_of_full hlength hfull]
    rfl
  length_eq := rfl
  nodup := List.nodup_nil

variable (hroom : n * n * W.width < 0x8000000000000000)

include hlength hroom in
/-- What a grid is built with is what an assignment is found with. -/
theorem endsAfter_of_ofFnM (hk : k ≤ n * n) {r : Except ε (Grid n Int)}
    (h : (Grid.ofFnM cost).run.run s = (r, stateAfter (calls cost) s k))
    (hnoting : (Grid.ofFnM (noting cost)).run.run (s, []) =
      (r, stateAfter (calls (noting cost)) (s, []) k)) :
    EndsAfter W cost s k (r.map fun g ↦ assign W ⟨n, g⟩) where
  run_eq := by rw [run_assignByM hlength hroom, run_map, h]
  run_noting_eq := by
    rw [run_assignByM hlength hroom, run_map, hnoting]
    exact congrArg (Prod.mk _) (stateAfter_noted (calls cost) s hk)
  length_eq := by rw [List.length_take, Grid.length_cells, Nat.min_eq_left hk]
  nodup := (Grid.nodup_cells n).sublist (List.take_sublist _ _)

include hlength hroom in
/-- The error of the first call that fails is the result, and no later cell is called. -/
theorem endsAfter_error {e : ε}
    (he : answerAt (calls cost) s i j = .error e)
    (h : ∀ i' j' : Fin n, i'.val * n + j'.val < i.val * n + j.val →
      ∃ c, answerAt (calls cost) s i' j' = .ok c) :
    EndsAfter W cost s (i.val * n + j.val + 1) (.error e) := by
  have hanswer (i j : Fin n) : answerAt (calls (noting cost)) (s, []) i j =
      answerAt (calls cost) s i j := answerAt_noted (calls cost) s i j
  refine endsAfter_of_ofFnM hlength hroom (CostMatrix.index_lt i j) (run_ofFnM_eq_error he h)
    (run_ofFnM_eq_error ((hanswer i j).trans he) fun i' j' hlt ↦ ?_)
  rw [hanswer]
  exact h i' j' hlt

include hlength hroom in
/-- If no call fails, all cells are called, and the result is that for the matrix of the answers. -/
theorem endsAfter_ok (h : ∀ i j, answerAt (calls cost) s i j = .ok (g.cell i j)) :
    EndsAfter W cost s (n * n) (.ok (assign W ⟨n, g⟩)) :=
  endsAfter_of_ofFnM hlength hroom (Nat.le_refl _) (run_ofFnM_eq_ok h)
    (run_ofFnM_eq_ok fun i j ↦ (answerAt_noted (calls cost) s i j).trans (h i j))

end Results

/-! ### Other ways to ask for an assignment -/

section Pure

variable {m : Type → Type} [Monad m] [LawfulMonad m] (W : CostType)

theorem Grid.ofFnM_pure (cost : Fin n → Fin n → α) :
    ofFnM (fun i j ↦ (pure (cost i j) : m α)) = pure (ofFn cost) := by
  simp only [ofFnM, ofFn, Vector.ofFnM_pure]

/-- Without effects, an effectful cost function is a cost function. -/
theorem assignByM_pure (cost : Fin n → Fin n → Int) :
    assignByM W n (fun i j ↦ (pure (cost i j) : m Int)) =
      ExceptT.mk (pure (assignBy W n cost)) := by
  rw [assignByM, CostMatrix.ofFnM, assignBy, CostMatrix.ofFn, Grid.ofFnM_pure]
  refine ExceptT.ext ?_
  cases CostMatrix.reserve n W.width with
  | error fault => simp [ExceptT.run_bind]
  | ok _ => simp [ExceptT.run_bind]

theorem assignBetweenM_pure {A B : Type} (workers : Array A) (tasks : Array B)
    (pair : Nat → Nat → A → B → Int) :
    assignBetweenM W workers tasks (fun i j a b ↦ (pure (pair i j a b) : m Int)) =
      ExceptT.mk (pure (assignBetween W workers tasks pair)) := by
  rw [assignBetweenM, assignBetween]
  split
  · exact assignByM_pure W _
  · rfl

end Pure

section Infallible

variable {W : CostType} {g : Grid n Int} (hlength : n * n < 0x8000000000000000)
  (hroom : n * n * W.width < 0x8000000000000000)

include hlength hroom in
/-- With a pure cost function, the answer is that for the matrix of its values. -/
theorem assignBy_eq {cost : Fin n → Fin n → Int} (h : ∀ i j, cost i j = g.cell i j) :
    assignBy W n cost = assign W ⟨n, g⟩ := by
  have hgrid : Grid.ofFn cost = g :=
    Grid.ext_cell fun i j ↦ (Grid.cell_ofFn cost i j).trans (h i j)
  rw [assignBy, CostMatrix.ofFn, CostMatrix.reserve_eq_ok hlength hroom, Checked.ok_bind, hgrid]
  rfl

include hlength hroom in
/-- With a stateful cost function, the answer is that for the matrix of what it answers. -/
theorem run_assignByM_eq {cost : Fin n → Fin n → StateM σ Int} {s : σ}
    (h : ∀ i j, answerAt cost s i j = g.cell i j) :
    (assignByM W n cost).run.run s = (assign W ⟨n, g⟩, stateAfter cost s (n * n)) := by
  rw [run_assignByM hlength hroom, StateT.run_map, run_ofFnM_eq h]
  rfl

variable {A B : Type} {workers : Array A} {tasks : Array B} (hsides : workers.size = tasks.size)
  (hn : workers.size = n)

include hlength hroom in
theorem assignBetween_eq {pair : Nat → Nat → A → B → Int}
    (h : ∀ i j, CostMatrix.pairCost workers tasks hsides pair i j =
      g.cell (i.cast hn) (j.cast hn)) :
    assignBetween W workers tasks pair = assign W ⟨n, g⟩ := by
  subst hn
  rw [assignBetween, dif_pos hsides]
  exact assignBy_eq hlength hroom h

include hlength hroom in
theorem run_assignBetweenM_eq {pair : Nat → Nat → A → B → StateM σ Int} {s : σ}
    (h : ∀ i j, answerAt (CostMatrix.pairCost workers tasks hsides pair) s i j =
      g.cell (i.cast hn) (j.cast hn)) :
    (assignBetweenM W workers tasks pair).run.run s = (assign W ⟨n, g⟩,
      stateAfter (CostMatrix.pairCost workers tasks hsides pair) s (n * n)) := by
  subst hn
  rw [assignBetweenM, dif_pos hsides]
  exact run_assignByM_eq hlength hroom h

end Infallible

/-- The costs of a grid lead to one answer, whichever way an assignment is asked for. -/
structure AnswersAgree (W : CostType) (g : Grid n Int) : Prop where
  assignBy_eq : assignBy W n g.cell = assign W ⟨n, g⟩
  /-- A stateful function that cannot fail is called on all cells. -/
  run_assignByM_eq : ∀ (τ : Type) (cost : Fin n → Fin n → StateM τ Int) (t : τ),
    (∀ i j, answerAt cost t i j = g.cell i j) →
    (assignByM W n cost).run.run t = (assign W ⟨n, g⟩, stateAfter cost t (n * n))
  /-- Two lists have the costs of the grid as their pair costs. -/
  assignBetween_eq : ∀ (A B : Type) (workers : Array A) (tasks : Array B)
    (hsides : workers.size = tasks.size) (hn : workers.size = n) (pair : Nat → Nat → A → B → Int),
    (∀ i j, CostMatrix.pairCost workers tasks hsides pair i j = g.cell (i.cast hn) (j.cast hn)) →
    assignBetween W workers tasks pair = assign W ⟨n, g⟩
  run_assignBetweenM_eq : ∀ (A B : Type) (workers : Array A) (tasks : Array B)
    (hsides : workers.size = tasks.size) (hn : workers.size = n) (τ : Type)
    (pair : Nat → Nat → A → B → StateM τ Int) (t : τ),
    (∀ i j, answerAt (CostMatrix.pairCost workers tasks hsides pair) t i j =
      g.cell (i.cast hn) (j.cast hn)) →
    (assignBetweenM W workers tasks pair).run.run t = (assign W ⟨n, g⟩,
      stateAfter (CostMatrix.pairCost workers tasks hsides pair) t (n * n))
  /-- The answer is an assignment if the costs and the spreads of the rows fit. -/
  exists_perm : (⟨n, g⟩ : CostMatrix Int).Over W → (⟨n, g⟩ : CostMatrix Int).SpreadsFit W →
    ∃ a, assign W ⟨n, g⟩ = .ok a ∧ a.Perm (List.range n)

theorem answersAgree {W : CostType} (hlength : n * n < 0x8000000000000000)
    (hroom : n * n * W.width < 0x8000000000000000) (g : Grid n Int) : AnswersAgree W g where
  assignBy_eq := assignBy_eq hlength hroom fun _ _ ↦ rfl
  run_assignByM_eq _ _ _ := run_assignByM_eq hlength hroom
  assignBetween_eq _ _ _ _ hsides hn _ := assignBetween_eq hlength hroom hsides hn
  run_assignBetweenM_eq _ _ _ _ hsides hn _ _ _ := run_assignBetweenM_eq hlength hroom hsides hn
  exists_perm hover hspread := by
    obtain ⟨σ, hassign, -⟩ := exists_assign hover hspread
    exact ⟨_, hassign, perm_ofFn_perm σ⟩

/-- Whichever way an assignment is asked for, there is a fault before any effect of a cost
function. -/
structure FaultsAtOnce (W : CostType) (n : Nat) (fault : Fault) : Prop where
  assignBy_eq : ∀ cost : Fin n → Fin n → Int, assignBy W n cost = .error fault
  run_assignByM_eq : ∀ (m : Type → Type) [Monad m] [LawfulMonad m] (cost : Fin n → Fin n → m Int),
    (assignByM W n cost).run = pure (.error fault)
  assignBetween_eq : ∀ (A B : Type) (workers : Array A) (tasks : Array B),
    workers.size = tasks.size → workers.size = n → ∀ pair : Nat → Nat → A → B → Int,
    assignBetween W workers tasks pair = .error fault
  run_assignBetweenM_eq : ∀ (m : Type → Type) [Monad m] [LawfulMonad m] (A B : Type)
    (workers : Array A) (tasks : Array B), workers.size = tasks.size → workers.size = n →
    ∀ pair : Nat → Nat → A → B → m Int,
    (assignBetweenM W workers tasks pair).run = pure (.error fault)

theorem faultsAtOnce {W : CostType} (hlength : n * n < 0x8000000000000000)
    (hfull : 0x8000000000000000 ≤ n * n * W.width) : FaultsAtOnce W n .capacity := by
  have hpure (cost : Fin n → Fin n → Int) : assignBy W n cost = .error .capacity := by
    rw [assignBy, CostMatrix.ofFn, CostMatrix.reserve_eq_capacity hlength hfull]
    rfl
  refine ⟨hpure, fun m _ _ ↦ run_assignByM_of_full hlength hfull,
    fun A B workers tasks hsides hn pair ↦ ?_, fun m _ _ A B workers tasks hsides hn pair ↦ ?_⟩
  · subst hn
    rw [assignBetween, dif_pos hsides]
    exact hpure _
  · subst hn
    rw [assignBetweenM, dif_pos hsides]
    exact run_assignByM_of_full hlength hfull _

/-- **The order of calls.** If there is room for all costs, a cost function with a state that may
fail is called on the cells in row-major order, on each at most once. The first error is the result,
and no cell after it is called. Without an error all cells are called, and the answer is the one for
the matrix of the costs, which is also the answer with any function that cannot fail and any two
lists with pair costs that give the same costs. If there is no room, all of these fault before the
first call. -/
theorem assignByM_endsAfter (W : CostType) {n : Nat} (hlength : n * n < 0x8000000000000000)
    {ε σ : Type} (cost : Fin n → Fin n → ExceptT ε (StateM σ) Int) (s : σ) :
    (n * n * W.width < 0x8000000000000000 →
      (∀ i j e, answerAt (calls cost) s i j = .error e →
        (∀ i' j' : Fin n, i'.val * n + j'.val < i.val * n + j.val →
          ∃ c, answerAt (calls cost) s i' j' = .ok c) →
        EndsAfter W cost s (i.val * n + j.val + 1) (.error e)) ∧
      ∀ g : Grid n Int, (∀ i j, answerAt (calls cost) s i j = .ok (g.cell i j)) →
        EndsAfter W cost s (n * n) (.ok (assign W ⟨n, g⟩)) ∧ AnswersAgree W g) ∧
    (0x8000000000000000 ≤ n * n * W.width →
      EndsAfter W cost s 0 (.ok (.error .capacity)) ∧ FaultsAtOnce W n .capacity) :=
  ⟨fun hroom ↦ ⟨fun _ _ _ ↦ endsAfter_error hlength hroom,
      fun g hg ↦ ⟨endsAfter_ok hlength hroom hg, answersAgree hlength hroom g⟩⟩,
    fun hfull ↦ ⟨endsAfter_capacity hlength hfull, faultsAtOnce hlength hfull⟩⟩

/-- The cost of a cell is the square of the number of calls before, of which there is a limit. -/
def squares (limit : Nat) (_ _ : Fin 2) : ExceptT String (StateM Nat) Int := do
  let k ← get
  set (k + 1)
  if k = limit then throw "too many calls"
  return k * k

/-- There is no cost for any cell. -/
def noCosts (n : Nat) (_ _ : Fin n) : ExceptT String (StateM Unit) Int :=
  throw "no cost"

theorem assignByM_endsAfter_squares :
    2 * 2 < 0x8000000000000000 ∧ 2 * 2 * (CostType.unsigned 8).width < 0x8000000000000000 ∧
      EndsAfter (.unsigned 8) (squares 2) 0 3 (.error "too many calls") ∧
      EndsAfter (.unsigned 8) (squares 4) 0 4 (.ok (.ok [1, 0])) ∧
      EndsAfter (.unsigned 64) (noCosts 0x40000000) () 0 (.ok (.error .capacity)) := by
  have hlength : 2 * 2 < 0x8000000000000000 := by decide
  have hroom : 2 * 2 * (CostType.unsigned 8).width < 0x8000000000000000 := by decide
  have hlimit : answerAt (calls (squares 2)) 0 1 0 = .error "too many calls" := by decide
  have hbefore : ∀ i j : Fin 2, i.val * 2 + j.val < 2 →
      answerAt (calls (squares 2)) 0 i j = .ok ((i * 2 + j) * (i * 2 + j)) := by decide
  have hall : ∀ i j : Fin 2, answerAt (calls (squares 4)) 0 i j =
      .ok (Grid.cell #v[#v[0, 1], #v[4, 9]] i j) := by decide
  have hassign : assign (.unsigned 8) ⟨2, #v[#v[0, 1], #v[4, 9]]⟩ = .ok [1, 0] := by
    decide +kernel
  refine ⟨hlength, hroom, ((assignByM_endsAfter _ hlength (squares 2) 0).1 hroom).1 1 0 _ hlimit
    fun i j hlt ↦ ⟨_, hbefore i j hlt⟩, ?_, ?_⟩
  · exact hassign ▸
      (((assignByM_endsAfter (.unsigned 8) hlength (squares 4) 0).1 hroom).2 _ hall).1
  · exact ((assignByM_endsAfter (.unsigned 64) (by decide) (noCosts 0x40000000) ()).2
      (by decide)).1

/-- Not every first call that fails is made: there may be no room for the costs. -/
theorem not_forall_endsAfter_error : ¬ ∀ (W : CostType) (n : Nat),
    n * n < 0x8000000000000000 → ∀ (ε σ : Type) (cost : Fin n → Fin n → ExceptT ε (StateM σ) Int)
      (s : σ) (i j : Fin n) (e : ε), answerAt (calls cost) s i j = .error e →
      (∀ i' j' : Fin n, i'.val * n + j'.val < i.val * n + j.val →
        ∃ c, answerAt (calls cost) s i' j' = .ok c) →
      EndsAfter W cost s (i.val * n + j.val + 1) (.error e) := by
  intro h
  have hends := h (.unsigned 64) 0x40000000 (by decide) String Unit (noCosts 0x40000000) ()
    ⟨0, by decide⟩ ⟨0, by decide⟩ "no cost" rfl fun i' j' hlt ↦ by simp at hlt
  have hrun := hends.run_eq
  rw [run_assignByM_of_full (by decide) (by decide)] at hrun
  cases hrun

end LinearAssignment
