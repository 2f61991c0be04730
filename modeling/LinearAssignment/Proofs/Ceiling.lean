import LinearAssignment.CostType

/-!
# The largest cost of a type

What a solver needs to know of a cost type is its largest cost. Costs from zero up to it are of the
type (`CostType.fits_of_nonneg`), differences of such costs stay below it, and a sum that would
pass it is replaced by it: `CostType.clamp` says so on exact integers, and `raise_eq_ok` and
`sub_eq_ok` say that the checked operations of the solver compute just that without a fault.
-/

namespace LinearAssignment.CostType

variable {W : CostType} {c d m : Int}

/-- Not above the largest cost of the type, if there is one. -/
def AtMost (W : CostType) (c : Int) : Prop :=
  ∀ top ∈ W.greatest?, c ≤ top

instance (W : CostType) (c : Int) : Decidable (W.AtMost c) :=
  inferInstanceAs (Decidable (∀ top ∈ W.greatest?, c ≤ top))

/-- The cost `c`, or the largest cost of the type where `c` is above it. -/
def clamp (W : CostType) (c : Int) : Int :=
  match W.greatest? with
  | none => c
  | some top => min c top

theorem AtMost.mono (h : W.AtMost d) (hle : c ≤ d) : W.AtMost c :=
  fun top htop ↦ Int.le_trans hle (h top htop)

theorem not_atMost_iff : ¬ W.AtMost c ↔ ∃ top, W.greatest? = some top ∧ top < c := by
  simp only [AtMost, Option.mem_def, Classical.not_forall, Int.not_le, exists_prop]

theorem atMost_unbounded (c : Int) : unbounded.AtMost c := by
  simp [AtMost, greatest?]

/-- A cost of a type is not above its largest one. -/
theorem atMost_of_fits (h : W.Fits c) : W.AtMost c := by
  intro top htop
  cases W with
  | unsigned bits =>
    obtain ⟨-, hlt⟩ := h
    simp only [greatest?, Option.mem_def, Option.some.injEq] at htop
    omega
  | signed bits =>
    obtain ⟨-, hlt⟩ := h
    simp only [greatest?, Option.mem_def, Option.some.injEq] at htop
    omega
  | unbounded => simp [greatest?] at htop

/-- From zero to its largest one, all integers are costs of a type. -/
theorem fits_of_nonneg (h₀ : 0 ≤ c) (h : W.AtMost c) : W.Fits c := by
  cases W with
  | unsigned bits =>
    have htop := h _ rfl
    exact ⟨h₀, by omega⟩
  | signed bits =>
    have htop := h _ rfl
    exact ⟨by omega, by omega⟩
  | unbounded => trivial

/-! ### Clamping -/

theorem clamp_le (W : CostType) (c : Int) : W.clamp c ≤ c := by
  rw [clamp]
  split
  · exact Int.le_refl c
  · exact Int.min_le_left c _

theorem atMost_clamp (W : CostType) (c : Int) : W.AtMost (W.clamp c) := by
  intro top htop
  rw [Option.mem_def] at htop
  simp only [clamp, htop]
  exact Int.min_le_right c top

/-- A number that is changed by clamping has become the largest cost. -/
theorem clamp_eq_or (W : CostType) (c : Int) :
    W.clamp c = c ∨ ∃ top, W.greatest? = some top ∧ W.clamp c = top ∧ top < c := by
  rw [clamp]
  split
  · exact .inl rfl
  · rename_i top htop
    rcases Int.lt_or_le top c with hlt | hle
    · exact .inr ⟨top, htop, Int.min_eq_right (Int.le_of_lt hlt), hlt⟩
    · exact .inl (Int.min_eq_left hle)

theorem clamp_of_atMost (h : W.AtMost c) : W.clamp c = c := by
  rcases clamp_eq_or W c with heq | ⟨top, htop, -, hlt⟩
  · exact heq
  · exact absurd (h top htop) (Int.not_le.2 hlt)

/-- Clamping a number does not take it below what clamping keeps. -/
theorem le_clamp (hd : W.AtMost d) (h : d ≤ c) : d ≤ W.clamp c := by
  rcases clamp_eq_or W c with heq | ⟨top, htop, heq, -⟩
  · rwa [heq]
  · rw [heq]
    exact hd top htop

/-! ### Checked operations -/

/-- A difference that is not negative and not above the largest cost is formed without a fault. -/
theorem sub_eq_ok (h₀ : m ≤ c) (h : W.AtMost (c - m)) : W.sub c m = .ok (c - m) :=
  check_eq_ok_iff.2 ⟨fits_of_nonneg (by omega) h, rfl⟩

/-- A difference that is not negative is formed without a fault, or is above the largest cost. -/
theorem sub_eq_error (h : ¬ W.AtMost (c - m)) : W.sub c m = .error (.overflow .subtract) := by
  rw [sub, check]
  exact if_neg fun hfits ↦ h (atMost_of_fits hfits)

/-- A cost is raised to the exact sum, clamped at the largest cost. -/
theorem raise_eq_ok (hm : 0 ≤ m) (hm' : W.AtMost m) (hc : 0 ≤ c) :
    W.raise m c = .ok (W.clamp (c + m)) := by
  rw [raise, clamp]
  cases htop : W.greatest? with
  | none =>
    have hfits : W.Fits (c + m) := fits_of_nonneg (by omega) (by simp [AtMost, htop])
    exact check_eq_ok_iff.2 ⟨hfits, rfl⟩
  | some top =>
    have hle : m ≤ top := hm' top htop
    have htop_atMost : ∀ {x}, x ≤ top → W.AtMost x := fun hx t ht ↦ by
      rw [Option.mem_def, htop, Option.some.injEq] at ht
      exact ht ▸ hx
    have hroom : W.sub top m = .ok (top - m) := sub_eq_ok hle (htop_atMost (by omega))
    show (W.sub top m >>= fun room ↦ if c > room then pure top else W.add c m) =
      Except.ok (min (c + m) top)
    rw [hroom]
    show (if c > top - m then pure top else W.add c m) = Except.ok (min (c + m) top)
    by_cases hgt : c > top - m
    · rw [if_pos hgt, Int.min_eq_right (by omega)]
      rfl
    · rw [if_neg hgt, Int.min_eq_left (by omega)]
      exact check_eq_ok_iff.2 ⟨fits_of_nonneg (by omega) (htop_atMost (by omega)), rfl⟩

end LinearAssignment.CostType
