import LinearAssignment.Proofs.Runs

/-!
# The faults of a solver

A solver is stepped or asked for a solution, in any order. Until one of these calls faults its
states are sound (`Solver.Sound.foldlM_perform`), and the only call that faults is the one that
lowers the rows, if one of them has a spread above the largest cost of the type
(`session_perform_eq_error_iff`). So none of the internal checks of stars, primes and covers, of
augmenting paths, of shifts and of the number of steps ever fails, and a solution is always reached.

Positions are elements of `Fin n` throughout the steps, so they are in range as they stand. Only the
row operations of a matrix check a position that is a number, and the word arithmetic on it: their
checks do not fail either, as `CostMatrix.foldlM_lowerRow` says.
-/

namespace LinearAssignment

variable {n : Nat} {W : CostType}

namespace Solver

/-- A call on a solver. -/
inductive Call
  /-- One step. -/
  | step
  /-- A solution, into a buffer. -/
  | solve (buffer : List Nat)

/-- A buffer has one entry per worker. -/
def Call.Fits (n : Nat) : Call → Prop
  | .step => True
  | .solve buffer => buffer.length = n

/-- The state after a call. -/
def perform (W : CostType) (s : Solver n) : Call → Checked (Solver n)
  | .step => s.step W
  | .solve buffer => do
    let (s, _) ← s.solveInto W buffer
    return s

end Solver

/-- The state of a new solver for a matrix after some calls. -/
def CostMatrix.session (W : CostType) (m : CostMatrix Int) (calls : List Solver.Call) :
    Checked (Solver m.size) := do
  calls.foldlM (fun s call ↦ s.perform W call) (← Solver.ofMatrix m)

namespace Solver.Sound

variable {C : Grid n Int} {p : Potentials n} {s s' : Solver n} {call : Call}

/-- A call that lowers no row whose spread does not fit goes through. -/
theorem exists_perform (h : Sound W C p s) (hn : 0 < n) (hword : stepBound n < Word.bound)
    (hspread : s.phase = .reduce → C.SpreadsFit W) (hcall : call.Fits n) :
    ∃ s' p', s.perform W call = .ok s' ∧ Sound W C p' s' := by
  cases call with
  | step =>
    obtain ⟨s', hstep, h'⟩ := h.exists_step hn hword hspread
    exact ⟨s', p.next s, hstep, h'⟩
  | solve buffer =>
    obtain ⟨s', p', σ, hsolve, h', -⟩ := h.exists_solveInto hn hword hspread hcall
    exact ⟨s', p', by rw [perform, hsolve]; rfl, h'⟩

/-- A call that lowers a row whose spread does not fit overflows. -/
theorem perform_eq_error (h : Sound W C p s) (hn : 0 < n) (hs : s.phase = .reduce)
    (hspread : ¬ C.SpreadsFit W) (hcall : call.Fits n) :
    s.perform W call = .error (.overflow .subtract) := by
  have hstep := h.step_eq_error hs hspread
  cases call with
  | step => exact hstep
  | solve buffer =>
    have hdone : s.isDone = false := beq_eq_false_iff_ne.2 (by simp [hs])
    obtain ⟨fuel, hfuel⟩ : ∃ fuel, stepBound n = fuel + 1 :=
      Nat.exists_eq_add_one.2 (Nat.add_pos_right _ (Nat.mul_pos Nat.two_pos hn))
    have hrun : s.run W = .error (.overflow .subtract) := by
      rw [run, hfuel, runFor, hdone, hstep]
      rfl
    have hlength : buffer.length = n := hcall
    simp [perform, solveInto, hlength, hrun]

/-- A call gives a sound state, or overflows because it lowers a row whose spread does not fit. -/
theorem perform_cases (h : Sound W C p s) (hn : 0 < n) (hword : stepBound n < Word.bound)
    (hcall : call.Fits n) :
    ((s.phase = .reduce → C.SpreadsFit W) ∧ ∃ s' p', s.perform W call = .ok s' ∧ Sound W C p' s') ∨
    (s.phase = .reduce ∧ ¬ C.SpreadsFit W ∧ s.perform W call = .error (.overflow .subtract)) := by
  by_cases hspread : s.phase = .reduce → C.SpreadsFit W
  · exact .inl ⟨hspread, h.exists_perform hn hword hspread hcall⟩
  · obtain ⟨hs, hspread⟩ := Classical.not_imp.1 hspread
    exact .inr ⟨hs, hspread, h.perform_eq_error hn hs hspread hcall⟩

/-- The calls that fault are those that lower a row whose spread does not fit. -/
theorem perform_eq_error_iff (h : Sound W C p s) (hn : 0 < n) (hword : stepBound n < Word.bound)
    (hcall : call.Fits n) {fault : Fault} : s.perform W call = .error fault ↔
      s.phase = .reduce ∧ ¬ C.SpreadsFit W ∧ fault = .overflow .subtract := by
  rcases h.perform_cases hn hword hcall with ⟨hspread, s', p', hs', -⟩ | ⟨hs, hspread, herror⟩
  · rw [hs']
    exact iff_of_false (by simp) fun ⟨hs, hwide, _⟩ ↦ hwide (hspread hs)
  · rw [herror, Except.error.injEq, eq_comm]
    exact ⟨fun heq ↦ ⟨hs, hspread, heq⟩, fun ⟨_, _, heq⟩ ↦ heq⟩

/-- The states between calls are sound. -/
theorem foldlM_perform (h : Sound W C p s) (hn : 0 < n) (hword : stepBound n < Word.bound)
    {calls : List Call} (hcalls : ∀ call ∈ calls, call.Fits n)
    (hs' : calls.foldlM (fun s call ↦ s.perform W call) s = .ok s') : ∃ p', Sound W C p' s' := by
  induction calls generalizing s p with
  | nil =>
    obtain rfl := Except.ok.inj hs'
    exact ⟨p, h⟩
  | cons call calls ih =>
    obtain ⟨hcall, hcalls⟩ := List.forall_mem_cons.1 hcalls
    rw [List.foldlM_cons] at hs'
    obtain ⟨s₁, hs₁, hs'⟩ := Checked.bind_eq_ok_iff.1 hs'
    rcases h.perform_cases hn hword hcall with ⟨-, s₂, p₂, hs₂, h₂⟩ | ⟨-, -, herror⟩
    · obtain rfl := Except.ok.inj (hs₁.symm.trans hs₂)
      exact ih h₂ hcalls hs'
    · rw [herror] at hs₁
      cases hs₁

end Solver.Sound

/-- **The only fault of a solver.** After any calls that went through, a call faults exactly if it
lowers the rows and the greatest and the least cost of one of them differ by more than the largest
cost of the type. The fault is the overflow of a subtraction. Where costs are not negative, no call
faults. -/
theorem session_perform_eq_error_iff {m : CostMatrix Int} (h : m.Over W) (hm : 0 < m.size)
    {calls : List Solver.Call} (hcalls : ∀ call ∈ calls, call.Fits m.size)
    {s : Solver m.size} (hs : m.session W calls = .ok s) (call : Solver.Call)
    (hcall : call.Fits m.size) :
    (∀ fault, s.perform W call = .error fault ↔ s.phase = .reduce ∧
      (∃ i top, W.greatest? = some top ∧ top < m.grid.rowGreatest i - m.grid.rowLeast i) ∧
      fault = .overflow .subtract ∧ fault.message = "attempt to subtract with overflow") ∧
    (W.hasNegative = false → ∃ s', s.perform W call = .ok s') := by
  have hword := Solver.stepBound_lt h.length_lt
  rw [CostMatrix.session, Solver.ofMatrix_eq_ok hm, Checked.ok_bind] at hs
  obtain ⟨p, hsound⟩ := (Solver.sound_initial W m.grid).foldlM_perform hm hword hcalls hs
  refine ⟨fun fault ↦ ?_, fun hnegative ↦ ?_⟩
  · rw [hsound.perform_eq_error_iff hm hword hcall, Grid.not_spreadsFit_iff]
    refine and_congr_right fun _ ↦ and_congr_right fun _ ↦ ⟨?_, And.left⟩
    rintro rfl
    exact ⟨rfl, rfl⟩
  · obtain ⟨s', -, hs', -⟩ := hsound.exists_perform hm hword
      (fun _ ↦ h.spreadsFit_of_unsigned hnegative) hcall
    exact ⟨s', hs'⟩

/-- Costs with seven bits besides the sign, with a row whose spread needs one more. -/
def CostMatrix.wideRow : CostMatrix Int where
  size := 2
  grid := #v[#v[0, 5], #v[127, -128]]

theorem session_perform_eq_error_iff_wideRow :
    CostMatrix.wideRow.Over (.signed 7) ∧ 0 < CostMatrix.wideRow.size ∧
      CostMatrix.wideRow.session (.signed 7) [] = .ok (.initial CostMatrix.wideRow.grid) ∧
      (Solver.Call.solve [0, 0]).Fits 2 ∧
      (Solver.initial CostMatrix.wideRow.grid).perform (.signed 7) (.solve [0, 0]) =
        .error (.overflow .subtract) :=
  have hover : CostMatrix.wideRow.Over (.signed 7) := ⟨by decide, by decide⟩
  ⟨hover, by decide, rfl, rfl,
    ((session_perform_eq_error_iff hover (by decide) (List.forall_mem_nil _) rfl
      (.solve [0, 0]) rfl).1 _).2 ⟨rfl, ⟨(1 : Fin 2), 127, rfl, by decide⟩, rfl, rfl⟩⟩

end LinearAssignment
