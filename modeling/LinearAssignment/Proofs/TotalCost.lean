import LinearAssignment.Proofs.Optimality
import Mathlib.Algebra.BigOperators.Fin

/-!
# Total costs

The total cost of an assignment is added up row by row on checked costs. Compared with the exact
sums of the first rows (`partialTotal`), there are two ways in which a row ends the sum without a
total (`rowFault?`), and the first such row decides what the fault is (`totalCost_eq_error`). If
there is none, the total is exact (`totalCost_eq_ok`).

A total that fits its type is not always found: where costs may be negative, a partial sum may leave
the type and the whole sum may not. Where they are not, partial sums grow with the rows, so a total
is found exactly if it is at most the largest cost (`totalCost_ofFn`).
-/

namespace LinearAssignment.CostMatrix

variable {W : CostType} {m : CostMatrix Int} {a : List Nat} {i j k : Nat} {e : Fault}

/-- The cost at a position, or zero outside of the matrix. -/
def costAt (m : CostMatrix Int) (i j : Nat) : Int :=
  if h : i < m.size ∧ j < m.size then m.grid.cell ⟨i, h.1⟩ ⟨j, h.2⟩ else 0

/-- The exact sum of the costs that a list of columns selects in the first `k` rows. -/
def partialTotal (m : CostMatrix Int) (a : List Nat) (k : Nat) : Int :=
  ((a.take k).zipIdx.map fun (j, i) ↦ m.costAt i j).sum

/-- What ends the sum at row `i`: the column selected in it is not in the matrix, or the exact sum
of the rows up to it is not a cost of the type. -/
def rowFault? (W : CostType) (m : CostMatrix Int) (a : List Nat) (i : Nat) : Option Fault := do
  let j ← a[i]?
  if m.size ≤ j then some (.position i j)
  else if W.Fits (m.partialTotal a (i + 1)) then none
  else some (.overflow .add)

/-! ### The first row that ends the sum -/

theorem get_eq_ok_costAt (hi : i < m.size) (hj : j < m.size) : m.get i j = .ok (m.costAt i j) := by
  rw [get, costAt, dif_pos ⟨hi, hj⟩, dif_pos ⟨hi, hj⟩]

/-- The rows up to one are those before it and this row. -/
theorem zipIdx_take_succ (h : a[k]? = some j) :
    (a.take (k + 1)).zipIdx = (a.take k).zipIdx ++ [(j, k)] := by
  obtain ⟨hk, -⟩ := List.getElem?_eq_some_iff.1 h
  rw [List.take_add_one, h, List.zipIdx_append, List.length_take_of_le hk.le, Nat.zero_add]
  rfl

theorem partialTotal_succ (h : a[k]? = some j) :
    m.partialTotal a (k + 1) = m.partialTotal a k + m.costAt k j := by
  rw [partialTotal, zipIdx_take_succ h, List.map_append, List.sum_append]
  simp [partialTotal]

/-- Adding the cost of a row to the exact sum of the rows before it. -/
theorem add_partialTotal (hk : k < m.size) (h : a[k]? = some j) :
    (do W.add (m.partialTotal a k) (← m.get k j)) =
      match m.rowFault? W a k with
      | some e => .error e
      | none => .ok (m.partialTotal a (k + 1)) := by
  rw [rowFault?, h, Option.bind_eq_bind, Option.bind_some]
  by_cases hj : m.size ≤ j
  · rw [if_pos hj, get, dif_neg fun hpos ↦ Nat.not_lt.2 hj hpos.2, Checked.error_bind]
  · rw [if_neg hj, get_eq_ok_costAt hk (Nat.not_le.1 hj), Checked.ok_bind, CostType.add,
      CostType.check, ← partialTotal_succ h]
    split <;> rfl

/-- Rows that do not end the sum are added up exactly. -/
theorem foldlM_take (hlength : a.length = m.size) (hk : k ≤ m.size)
    (hrows : ∀ i < k, m.rowFault? W a i = none) :
    (a.take k).zipIdx.foldlM (fun total (j, i) ↦ do W.add total (← m.get i j)) 0 =
      .ok (m.partialTotal a k) := by
  induction k with
  | zero => rfl
  | succ k ih =>
    have hget := List.getElem?_eq_getElem (hlength.symm ▸ hk : k < a.length)
    rw [zipIdx_take_succ hget, List.foldlM_append,
      ih (Nat.le_of_succ_le hk) fun i hi ↦ hrows i (Nat.lt_succ_of_lt hi), Checked.ok_bind,
      List.foldlM_cons]
    dsimp only
    rw [add_partialTotal hk hget, hrows k (Nat.lt_succ_self k)]
    rfl

/-- With a column for each row, a total is the sum over the rows. -/
theorem totalCost_eq_foldlM (hlength : a.length = m.size) : m.totalCost W a =
    a.zipIdx.foldlM (fun total (j, i) ↦ do W.add total (← m.get i j)) 0 := by
  rw [totalCost, if_pos hlength]

/-- If no row ends the sum, the total is exact. -/
theorem totalCost_eq_ok (hlength : a.length = m.size) (h : ∀ i, m.rowFault? W a i = none) :
    m.totalCost W a = .ok (m.partialTotal a m.size) := by
  have hfold := foldlM_take hlength (Nat.le_refl m.size) fun i _ ↦ h i
  rw [List.take_of_length_le (Nat.le_of_eq hlength)] at hfold
  rw [totalCost_eq_foldlM hlength, hfold]

/-- The first row that ends the sum decides how it ends. -/
theorem totalCost_eq_error (hlength : a.length = m.size) (h : m.rowFault? W a i = some e)
    (hfirst : ∀ k < i, m.rowFault? W a k = none) : m.totalCost W a = .error e := by
  obtain ⟨j, hj, -⟩ := Option.bind_eq_some_iff.1 h
  obtain ⟨hi, rfl⟩ := List.getElem?_eq_some_iff.1 hj
  have hsplit : a.zipIdx = (a.take i).zipIdx ++ (a[i], i) :: (a.drop (i + 1)).zipIdx (i + 1) := by
    conv_lhs => rw [← List.take_append_drop i a, List.drop_eq_getElem_cons hi]
    rw [List.zipIdx_append, List.length_take_of_le hi.le, List.zipIdx_cons, Nat.zero_add]
  have hrow := add_partialTotal (W := W) (hlength ▸ hi) hj
  rw [h] at hrow
  rw [totalCost_eq_foldlM hlength, hsplit, List.foldlM_append,
    foldlM_take hlength (hlength ▸ hi.le) hfirst, Checked.ok_bind, List.foldlM_cons]
  dsimp only
  rw [hrow, Checked.error_bind]

/-! ### Costs that are not negative -/

/-- Partial sums of costs that are not negative grow with the rows. -/
theorem partialTotal_le (hnonneg : ∀ i j, 0 ≤ m.costAt i j) (a : List Nat) {k k' : Nat}
    (hk : k ≤ k') : m.partialTotal a k ≤ m.partialTotal a k' := by
  induction k', hk using Nat.le_induction with
  | base => exact Int.le_refl _
  | succ k' _ ih =>
    refine Int.le_trans ih ?_
    cases hj : a[k']? with
    | some j =>
      rw [partialTotal_succ hj]
      exact Int.le_add_of_nonneg_right (hnonneg k' j)
    | none =>
      rw [partialTotal, partialTotal, List.take_add_one, hj, Option.toList_none, List.append_nil]

section Map

variable (f : Fin m.size → Fin m.size)

/-- For a map from rows to columns, the exact sum of all rows is its exact total. -/
theorem partialTotal_ofFn :
    m.partialTotal (List.ofFn fun i ↦ (f i).val) m.size = m.exactTotal f := by
  have hcosts : ((List.ofFn fun i ↦ (f i).val).zipIdx.map fun (j, i) ↦ m.costAt i j) =
      List.ofFn fun i ↦ m.grid.cell i (f i) := by
    refine List.ext_getElem (by simp) fun i _ hi ↦ ?_
    rw [List.length_ofFn] at hi
    simp [costAt, hi]
  rw [partialTotal, List.take_of_length_le (by simp), hcosts, List.sum_ofFn, exactTotal]

/-- Only sums that leave the type end the sum of the columns of a map. -/
theorem rowFault?_ofFn (i : Nat) : m.rowFault? W (List.ofFn fun i ↦ (f i).val) i =
    if i < m.size ∧ ¬ W.Fits (m.partialTotal (List.ofFn fun i ↦ (f i).val) (i + 1)) then
      some (.overflow .add)
    else none := by
  by_cases hi : i < m.size
  · simp [rowFault?, hi]
  · simp [rowFault?, hi]

/-- Where costs are not negative, a total is found exactly if it is at most the largest cost. -/
theorem totalCost_ofFn (h : m.Over W) (hW : W.hasNegative = false) :
    m.totalCost W (List.ofFn fun i ↦ (f i).val) =
      if W.AtMost (m.exactTotal f) then .ok (m.exactTotal f) else .error (.overflow .add) := by
  have hlength : (List.ofFn fun i ↦ (f i).val).length = m.size := List.length_ofFn
  have hnonneg : ∀ i j, 0 ≤ m.costAt i j := fun i j ↦ by
    rw [costAt]
    split
    · exact CostType.nonneg_of_fits hW (h.fits _ _)
    · exact Int.le_refl 0
  have hle {k k' : Nat} := @partialTotal_le m hnonneg (List.ofFn fun i ↦ (f i).val) k k'
  split <;> rename_i htop
  · rw [← partialTotal_ofFn f] at htop ⊢
    refine totalCost_eq_ok hlength fun i ↦ ?_
    rw [rowFault?_ofFn, if_neg]
    rintro ⟨hi, hfits⟩
    -- a partial sum lies between zero and the total
    exact hfits (CostType.fits_of_nonneg (hle (Nat.zero_le (i + 1))) (htop.mono (hle hi)))
  · -- the sum of all rows is not a cost, so some row is the first that ends the sum
    have htotal : ¬ W.Fits (m.exactTotal f) := mt CostType.atMost_of_fits htop
    have hpos : 0 < m.size := by
      refine Nat.pos_of_ne_zero fun hzero ↦ htotal ?_
      have hnone := congrArg (m.partialTotal (List.ofFn fun i ↦ (f i).val)) hzero
      rw [partialTotal_ofFn] at hnone
      exact hnone ▸ W.fits_zero
    have hlast : ∃ i, m.rowFault? W (List.ofFn fun i ↦ (f i).val) i = some (.overflow .add) := by
      refine ⟨m.size - 1, ?_⟩
      rw [rowFault?_ofFn, Nat.sub_add_cancel hpos, partialTotal_ofFn, if_pos ⟨by omega, htotal⟩]
    refine totalCost_eq_error hlength (Nat.find_spec hlast) fun i hi ↦ ?_
    have hother := Nat.find_min hlast hi
    rw [rowFault?_ofFn] at hother ⊢
    exact if_neg fun h ↦ hother (if_pos h)

end Map

/-- **What a total cost is.** It is decided by the first row whose column is not in the matrix or up
to which the exact sum is not a cost of the type; the fault says which of the two. If there is no
such row, it is the exact total. So where costs are not negative, the total cost of an assignment
that was found is the least exact total, if this is at most the largest cost; the sum overflows
exactly if the exact totals of all permutations are larger. -/
theorem totalCost_cases (W : CostType) (m : CostMatrix Int) :
    (∀ a, a.length = m.size →
      (∀ i j, a[i]? = some j → (∀ k < i, m.rowFault? W a k = none) →
        (m.size ≤ j → m.totalCost W a = .error (.position i j) ∧ (Fault.position i j).message =
          "Invalid matrix position (" ++ toString i ++ "," ++ toString j ++ ")") ∧
        (j < m.size → ¬ W.Fits (m.partialTotal a (i + 1)) →
          m.totalCost W a = .error (.overflow .add) ∧
            (Fault.overflow .add).message = "attempt to add with overflow")) ∧
      ((∀ i, m.rowFault? W a i = none) → m.totalCost W a = .ok (m.partialTotal a m.size))) ∧
    (m.Over W → W.hasNegative = false → ∃ σ : Equiv.Perm (Fin m.size),
      assign W m = .ok (List.ofFn fun i ↦ (σ i).val) ∧
      (∀ τ : Equiv.Perm (Fin m.size), m.exactTotal σ ≤ m.exactTotal τ) ∧
      (W.AtMost (m.exactTotal σ) →
        m.totalCost W (List.ofFn fun i ↦ (σ i).val) = .ok (m.exactTotal σ)) ∧
      (m.totalCost W (List.ofFn fun i ↦ (σ i).val) = .error (.overflow .add) ↔
        ∀ τ : Equiv.Perm (Fin m.size), ¬ W.AtMost (m.exactTotal τ))) := by
  constructor
  · refine fun a hlength ↦ ⟨fun i j hj hfirst ↦ ⟨fun hout ↦ ⟨?_, rfl⟩, fun hin hfits ↦ ⟨?_, rfl⟩⟩,
      totalCost_eq_ok hlength⟩
    · refine totalCost_eq_error hlength ?_ hfirst
      simp [rowFault?, hj, hout]
    · refine totalCost_eq_error hlength ?_ hfirst
      simp [rowFault?, hj, hin, hfits]
  · intro h hW
    obtain ⟨σ, hassign, hleast⟩ := exists_assign h (h.spreadsFit_of_unsigned hW)
    refine ⟨σ, hassign, hleast, fun htop ↦ ?_, ?_⟩
    · rw [totalCost_ofFn σ h hW, if_pos htop]
    · rw [totalCost_ofFn σ h hW]
      split <;> rename_i htop
      · exact iff_of_false nofun fun hall ↦ hall σ htop
      · exact iff_of_true rfl fun τ hτ ↦ htop (hτ.mono (hleast τ))

/-- Costs with seven bits besides the sign. The sum of the diagonal has no more bits, and that of
its first two costs has. -/
def diagonal : CostMatrix Int where
  size := 3
  grid := #v[#v[100, 0, 0], #v[0, 100, 0], #v[0, 0, -100]]

/-- Costs with four bits. The sums of both permutations have five. -/
def allTens : CostMatrix Int where
  size := 2
  grid := #v[#v[10, 10], #v[10, 10]]

theorem totalCost_cases_diagonal :
    diagonal.totalCost (.signed 7) [0, 1, 2] = .error (.overflow .add) ∧
      (CostType.signed 7).Fits (diagonal.partialTotal [0, 1, 2] 3) ∧
      diagonal.totalCost (.signed 7) [0, 3, 1] = .error (.position 1 3) ∧
      diagonal.totalCost (.signed 7) [2, 1, 0] = .ok 100 ∧
      allTens.Over (.unsigned 4) ∧ (CostType.unsigned 4).hasNegative = false ∧
      ∃ σ : Equiv.Perm (Fin 2), assign (.unsigned 4) allTens = .ok (List.ofFn fun i ↦ (σ i).val) ∧
        allTens.totalCost (.unsigned 4) (List.ofFn fun i ↦ (σ i).val) =
          .error (.overflow .add) := by
  obtain ⟨hlists, -⟩ := totalCost_cases (.signed 7) diagonal
  have htens : allTens.Over (.unsigned 4) := ⟨by decide, by decide⟩
  obtain ⟨σ, hassign, -, -, hiff⟩ := (totalCost_cases (.unsigned 4) allTens).2 htens rfl
  have htotal (τ : Equiv.Perm (Fin 2)) : allTens.exactTotal τ = 20 :=
    have hcell : ∀ i j, allTens.grid.cell i j = 10 := by decide
    (Finset.sum_congr rfl fun i _ ↦ hcell i (τ i)).trans (by decide)
  refine ⟨?_, by decide, ?_, ?_, htens, rfl, σ, hassign, hiff.2 fun τ ↦ htotal τ ▸ by decide⟩
  · exact (((hlists [0, 1, 2] rfl).1 1 1 rfl (by decide)).2 (by decide) (by decide)).1
  · exact (((hlists [0, 3, 1] rfl).1 1 3 rfl (by decide)).1 (by decide)).1
  · exact (hlists [2, 1, 0] rfl).2 fun
      | 0 | 1 | 2 => by decide
      | _ + 3 => rfl

end LinearAssignment.CostMatrix
