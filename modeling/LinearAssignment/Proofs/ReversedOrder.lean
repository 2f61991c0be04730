import LinearAssignment.Proofs.Rescaling
import Mathlib.Data.Fin.Tuple.Sort
import Mathlib.Data.Fintype.BigOperators

/-!
# Assignments in reversed order

Two workers that both have tasks in order may exchange them. Where the exchange always makes a total
smaller (`Grid.CheaperCrossed`), an optimal permutation has no two workers with tasks in order, so
it is the one that reverses the order (`eq_rev_of_isOptimal`). There is only one such permutation,
which is why the answer is known although an instance may have the solver augment and shift many
times.

Products of increasing factors are costs of this kind (`Grid.CheaperCrossed.of_mul`): the larger the
costs of a worker are, the more there is to lose on a late task.
-/

namespace LinearAssignment

/-- Two workers and two tasks cost less crosswise than in order. -/
def Grid.CheaperCrossed {n : Nat} (costs : Grid n Int) : Prop :=
  ∀ i i' j j', i < i' → j < j' →
    costs.cell i j' + costs.cell i' j < costs.cell i j + costs.cell i' j'

/-- The values increase strictly with the number of a worker or a task. -/
def Increasing {n : Nat} (x : Fin n → Int) : Prop :=
  ∀ i i', i < i' → x i < x i'

/-- Products of increasing factors cost less crosswise. -/
theorem Grid.CheaperCrossed.of_mul {n : Nat} {costs : Grid n Int} {x y : Fin n → Int}
    (hx : Increasing x) (hy : Increasing y) (h : ∀ i j, costs.cell i j = x i * y j) :
    costs.CheaperCrossed := by
  intro i i' j j' hi hj
  have hpos : 0 < (x i' - x i) * (y j' - y j) :=
    Int.mul_pos (Int.sub_pos_of_lt (hx i i' hi)) (Int.sub_pos_of_lt (hy j j' hj))
  rw [Int.sub_mul, Int.mul_sub, Int.mul_sub] at hpos
  rw [h, h, h, h]
  omega

namespace CostMatrix

variable {m : CostMatrix Int} {σ : Equiv.Perm (Fin m.size)}

/-- What an exchange of the tasks of two workers does to a total. -/
theorem exactTotal_swap (m : CostMatrix Int) (σ : Equiv.Perm (Fin m.size)) {i i' : Fin m.size}
    (hne : i ≠ i') : m.exactTotal ((Equiv.swap i i').trans σ) - m.exactTotal σ =
      m.grid.cell i (σ i') - m.grid.cell i (σ i) +
        (m.grid.cell i' (σ i) - m.grid.cell i' (σ i')) := by
  rw [exactTotal, exactTotal, ← Finset.sum_sub_distrib]
  refine (Fintype.sum_eq_add i i' hne fun k hk ↦ ?_).trans ?_
  · -- the other workers keep their tasks
    rw [Equiv.trans_apply, Equiv.swap_apply_of_ne_of_ne hk.1 hk.2, Int.sub_self]
  · rw [Equiv.trans_apply, Equiv.trans_apply, Equiv.swap_apply_left, Equiv.swap_apply_right]

/-- No two workers of an optimal permutation have tasks in order. -/
theorem antitone_of_isOptimal (h : m.grid.CheaperCrossed) (hσ : m.IsOptimal σ) : Antitone σ := by
  intro i i' hle
  by_contra hlt
  rw [not_le] at hlt
  have hne : i ≠ i' := fun heq ↦ hlt.ne (congrArg σ heq)
  have hless := h i i' (σ i) (σ i') (lt_of_le_of_ne hle hne) hlt
  have hswap := m.exactTotal_swap σ hne
  have hleast := hσ ((Equiv.swap i i').trans σ)
  omega

/-- The optimal permutation reverses the order. -/
theorem eq_rev_of_isOptimal (h : m.grid.CheaperCrossed) (hσ : m.IsOptimal σ) (i : Fin m.size) :
    σ i = i.rev := by
  have hσ' : Antitone (id ∘ σ) := antitone_of_isOptimal h hσ
  have hrev : Antitone (id ∘ Fin.revPerm (n := m.size)) := Fin.rev_anti
  exact congrFun (Tuple.unique_antitone hσ' hrev) i

theorem assign_eq_rev {W : CostType} (h : m.Over W) (hspread : m.SpreadsFit W)
    (hcosts : m.grid.CheaperCrossed) :
    assign W m = .ok (List.ofFn fun i : Fin m.size ↦ m.size - 1 - i.val) := by
  obtain ⟨σ, hassign, hσ⟩ := exists_assign h hspread
  have htasks : ∀ i, (σ i).val = m.size - 1 - i.val := fun i ↦ by
    rw [eq_rev_of_isOptimal hcosts hσ, Fin.val_rev]
    omega
  rw [hassign, funext htasks]

/-- **Reversed assignments.** Where costs are smaller crosswise than in order, the first worker gets
the last task, the second one the last but one, and so on. In particular this is the answer for
products of increasing factors, and for the products of the numbers of the workers and tasks,
counted from one on, whenever these are costs of the type. -/
theorem assign_eq_reversed {W : CostType} (h : m.Over W) :
    ((W.hasNegative = true → m.SpreadsFit W) →
      (m.grid.CheaperCrossed →
        assign W m = .ok (List.ofFn fun i : Fin m.size ↦ m.size - 1 - i.val)) ∧
      ∀ x y : Fin m.size → Int, Increasing x → Increasing y →
        (∀ i j, m.grid.cell i j = x i * y j) →
        assign W m = .ok (List.ofFn fun i : Fin m.size ↦ m.size - 1 - i.val)) ∧
    ((∀ i j, m.grid.cell i j = (i.val + 1) * (j.val + 1)) →
      assign W m = .ok (List.ofFn fun i : Fin m.size ↦ m.size - 1 - i.val)) := by
  constructor
  · intro hspread
    have hfit : m.SpreadsFit W := by
      cases hnegative : W.hasNegative with
      | true => exact hspread hnegative
      | false => exact h.spreadsFit_of_unsigned hnegative
    exact ⟨assign_eq_rev h hfit, fun x y hx hy hcosts ↦
      assign_eq_rev h hfit (.of_mul hx hy hcosts)⟩
  · intro hcosts
    have hnumbers : Increasing fun i : Fin m.size ↦ (i.val : Int) + 1 := fun i i' hi ↦
      Int.add_lt_add_right (Int.ofNat_lt.2 hi) 1
    refine assign_eq_rev h (h.spreadsFit_of_nonneg fun i j ↦ ?_) (.of_mul hnumbers hnumbers hcosts)
    rw [hcosts]
    exact Int.mul_nonneg (Int.natCast_succ_pos _).le (Int.natCast_succ_pos _).le

/-- Costs with seven bits besides the sign that are smaller crosswise than in order. -/
def crossed : CostMatrix Int where
  size := 3
  grid := #v[#v[46, 10, -35], #v[-28, -20, -10], #v[1, 57, 127]]

/-- The products of two lists of increasing numbers. -/
def products : CostMatrix Int where
  size := 3
  grid := #v[#v[36, 0, -45], #v[-8, 0, 10], #v[-56, 0, 70]]

/-- The products of the numbers from one to three. -/
def timesTable : CostMatrix Int where
  size := 3
  grid := #v[#v[1, 2, 3], #v[2, 4, 6], #v[3, 6, 9]]

theorem assign_eq_reversed_crossed :
    crossed.Over (.signed 7) ∧ crossed.SpreadsFit (.signed 7) ∧ crossed.grid.CheaperCrossed ∧
      assign (.signed 7) crossed = .ok [2, 1, 0] ∧
      products.Over (.signed 7) ∧ products.SpreadsFit (.signed 7) ∧
      assign (.signed 7) products = .ok [2, 1, 0] ∧
      timesTable.Over (.unsigned 4) ∧ assign (.unsigned 4) timesTable = .ok [2, 1, 0] := by
  have hcrossed : crossed.Over (.signed 7) := ⟨by decide, by decide⟩
  have hproducts : products.Over (.signed 7) := ⟨by decide, by decide⟩
  have htimes : timesTable.Over (.unsigned 4) := ⟨by decide, by decide⟩
  have hcheaper : crossed.grid.CheaperCrossed := by
    unfold Grid.CheaperCrossed
    decide
  have hspread : crossed.SpreadsFit (.signed 7) := by decide
  have hspread' : products.SpreadsFit (.signed 7) := by decide
  have hx : Increasing (Table.entry #v[(-9 : Int), 2, 14]) := by
    unfold Increasing
    decide
  have hy : Increasing (Table.entry #v[(-4 : Int), 0, 5]) := by
    unfold Increasing
    decide
  exact ⟨hcrossed, hspread, hcheaper, ((assign_eq_reversed hcrossed).1 fun _ ↦ hspread).1 hcheaper,
    hproducts, hspread',
    ((assign_eq_reversed hproducts).1 fun _ ↦ hspread').2 _ _ hx hy (by decide), htimes,
    (assign_eq_reversed htimes).2 (by decide)⟩

end CostMatrix

end LinearAssignment
