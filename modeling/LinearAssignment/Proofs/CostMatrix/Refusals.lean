import LinearAssignment.Proofs.Json.RoundTrip

/-!
# What the builders refuse

Data that is not square is refused with a shape, and for each builder it is said which data this is
and which shape (`ofRows_eq_error_iff`, `ofPairs_eq_throw_iff`, `ofEntries_eq_throw_iff`).

The shape of rows and of pairs is never square. That of a flat list counts whole columns only, so it
is square if the list is too long by less than a column: five entries for a size of two are refused
as two rows and two columns (`rows_eq_columns_iff`).

A flat list is not always refused. Its length is compared with the square of the size, which is not
a word for sizes from `0x100000000` on, and then there is a fault whatever the entries are
(`ofEntries_eq_fault`); so it is for a JSON text with such a size. For all other sizes there is a
matrix or a shape error (`DecidedBySize`).
-/

namespace LinearAssignment

/-- A square is a word exactly if its root has half of the bits. -/
theorem Word.mul_self_lt_bound_iff {n : Nat} : n * n < bound ↔ n < 0x100000000 := by
  have hbound : bound = 0x100000000 * 0x100000000 := rfl
  rw [hbound, Nat.mul_self_lt_mul_self_iff]

/-! ### The text of a shape error -/

namespace ShapeError

variable {e : ShapeError}

/-- The text of a shape error tells its two numbers. -/
theorem message_injective : Function.Injective message := by
  intro e e' h
  have hmiddle : " rows and ".toList = ' ' :: "rows and ".toList := by decide
  have hrest : " columns".toList = ' ' :: "columns".toList := by decide
  obtain ⟨hrows, hcolumns⟩ := Numeral.eq_and_eq_of_text hmiddle hrest rfl rfl h
  obtain ⟨rows, columns⟩ := e
  obtain ⟨rows', columns'⟩ := e'
  exact congrArg₂ mk hrows hcolumns

/-- The text of a shape error says that a matrix must be square, and names a square. -/
def NamesSquare (e : ShapeError) : Prop :=
  ∃ k : Nat, e.message = "cost matrix must be square, got " ++ toString k ++ " rows and " ++
    toString k ++ " columns"

theorem namesSquare_iff : e.NamesSquare ↔ e.rows = e.columns := by
  constructor
  · intro ⟨k, hk⟩
    have hsquare : e.message = message ⟨k, k⟩ := hk
    rw [message_injective hsquare]
  · intro h
    obtain ⟨rows, columns⟩ := e
    obtain rfl : rows = columns := h
    exact ⟨rows, rfl⟩

end ShapeError

namespace CostMatrix

variable {α A B ε : Type} {n : Nat} {data : Array α} {e : ShapeError}

/-! ### The shape that is reported -/

/-- Of rows, the first one is reported that has not as many entries as there are rows. -/
theorem ofRows_eq_error_iff {rows : List (List α)} : ofRows rows = .error e ↔
    ∃ before row after, rows = before ++ row :: after ∧
      (∀ other ∈ before, other.length = rows.length) ∧ row.length ≠ rows.length ∧
      e = ⟨rows.length, row.length⟩ := by
  have hfirst : ofRows rows = .error e ↔ ∃ row,
      rows.find? (fun row ↦ row.length != rows.length) = some row ∧
        e = ⟨rows.length, row.length⟩ := by
    rw [ofRows]
    split
    · rename_i row hrow
      simp [hrow, eq_comm]
    · rename_i hnone
      simp [hnone]
  rw [hfirst]
  constructor
  · rintro ⟨row, hrow, rfl⟩
    obtain ⟨hne, before, after, hrows, hbefore⟩ := List.find?_eq_some_iff_append.1 hrow
    exact ⟨before, row, after, hrows, by simpa using hbefore, by simpa using hne, rfl⟩
  · rintro ⟨before, row, after, hrows, hbefore, hne, rfl⟩
    have hrow : rows.find? (fun row ↦ row.length != rows.length) = some row :=
      List.find?_eq_some_iff_append.2
        ⟨by simpa using hne, before, after, hrows, by simpa using hbefore⟩
    exact ⟨row, hrow, rfl⟩

/-- Of two lists, the lengths are reported if they differ. -/
theorem ofPairs_eq_throw_iff {workers : Array A} {tasks : Array B}
    {cost : Nat → Nat → A → B → α} {width : Nat} : ofPairs workers tasks cost width = throw e ↔
      workers.size ≠ tasks.size ∧ e = ⟨workers.size, tasks.size⟩ := by
  rw [ofPairs]
  split
  · rename_i h
    have hnone : Reading.ThrowsOnly (fun _ ↦ False)
        (liftM (ofFn workers.size (pairCost workers tasks h cost) width) :
          ExceptT ShapeError Checked (CostMatrix α)) := Reading.throwsOnly_liftM _
    exact iff_of_false (hnone e) fun hne ↦ hne.1 h
  · rename_i h
    rw [Reading.throw_eq_throw_iff, and_iff_right h, eq_comm]

/-- A size whose square is not a word is a fault, whatever the entries are. -/
theorem ofEntries_eq_fault (hn : 0x100000000 ≤ n) (data : Array α) :
    ofEntries n data = ExceptT.lift (.error (.overflow .multiply)) := by
  have hword : ¬ n * n < Word.bound := by rw [Word.mul_self_lt_bound_iff, Nat.not_lt]; exact hn
  rw [ofEntries, Word.mul, if_neg hword]
  rfl

/-- There are three ends: a matrix, a shape error and a fault. -/
theorem ofEntries_cases (n : Nat) (data : Array α) :
    (n < 0x100000000 ∧ data.size = n * n ∧ ∃ m, ofEntries n data = pure m) ∨
    (n < 0x100000000 ∧ data.size ≠ n * n ∧
      ofEntries n data = throw ⟨n, if n = 0 then data.size else data.size / n⟩) ∨
    (0x100000000 ≤ n ∧ ofEntries n data = ExceptT.lift (.error (.overflow .multiply))) := by
  rcases Nat.lt_or_ge n 0x100000000 with hn | hn
  · have hword := Word.mul_self_lt_bound_iff.2 hn
    rcases eq_or_ne data.size (n * n) with hsize | hsize
    · exact .inl ⟨hn, hsize, exists_ofEntries hword hsize⟩
    · exact .inr (.inl ⟨hn, hsize, ofEntries_eq_throw hword hsize⟩)
  · exact .inr (.inr ⟨hn, ofEntries_eq_fault hn data⟩)

/-- Of a flat list, the number of whole columns that it fills is reported. -/
theorem ofEntries_eq_throw_iff : ofEntries n data = throw e ↔ n < 0x100000000 ∧
    data.size ≠ n * n ∧ e = ⟨n, if n = 0 then data.size else data.size / n⟩ := by
  rcases ofEntries_cases n data with ⟨_, hsize, m, hm⟩ | ⟨hn, hsize, hthrow⟩ | ⟨hn, hfault⟩
  · exact hm ▸ iff_of_false nofun fun h ↦ h.2.1 hsize
  · rw [hthrow, Reading.throw_eq_throw_iff, and_iff_right hn, and_iff_right hsize, eq_comm]
  · exact hfault ▸ iff_of_false nofun fun h ↦ Nat.not_lt.2 hn h.1

/-! ### Shapes that look like a square -/

/-- A shape that is reported of a flat list is square if the list is too long by less than a
column. -/
theorem rows_eq_columns_iff (h : ofEntries n data = throw e) :
    e.rows = e.columns ↔ n * n < data.size ∧ data.size < n * n + n := by
  obtain ⟨-, hsize, rfl⟩ := ofEntries_eq_throw_iff.1 h
  rcases Nat.eq_zero_or_pos n with rfl | hn
  · exact iff_of_false (fun heq ↦ hsize heq.symm) fun hlong ↦ Nat.not_lt_zero _ hlong.2
  · have hcolumns : data.size / n = n ↔ n * n ≤ data.size ∧ data.size < n * n + n := by
      rw [Nat.div_eq_iff hn]
      omega
    rw [if_neg hn.ne', eq_comm, hcolumns]
    omega

/-- **What rows and pairs are refused with never names a square, and what a flat list is refused
with does so exactly if the list is too long by less than a column.** A shape error names a square
if the two numbers in its text are equal. -/
theorem refused_namesSquare_iff (α A B : Type) :
    (∀ e : ShapeError, e.NamesSquare ↔ e.rows = e.columns) ∧
    (∀ (rows : List (List α)) e, ofRows rows = .error e → ¬ e.NamesSquare) ∧
    (∀ (workers : Array A) (tasks : Array B) (cost : Nat → Nat → A → B → α) width e,
      ofPairs workers tasks cost width = throw e → ¬ e.NamesSquare) ∧
    ∀ n (data : Array α), (∃ e, ofEntries n data = throw e ∧ e.NamesSquare) ↔
      n < 0x100000000 ∧ n * n < data.size ∧ data.size < n * n + n := by
  refine ⟨fun e ↦ ShapeError.namesSquare_iff, fun rows e h ↦ ?_,
    fun workers tasks cost width e h ↦ ?_, fun n data ↦ ?_⟩
  · obtain ⟨_, row, _, -, -, hne, rfl⟩ := ofRows_eq_error_iff.1 h
    exact fun hsquare ↦ hne (ShapeError.namesSquare_iff.1 hsquare).symm
  · obtain ⟨hne, rfl⟩ := ofPairs_eq_throw_iff.1 h
    exact fun hsquare ↦ hne (ShapeError.namesSquare_iff.1 hsquare)
  · constructor
    · rintro ⟨e, h, hsquare⟩
      exact ⟨(ofEntries_eq_throw_iff.1 h).1,
        (rows_eq_columns_iff h).1 (ShapeError.namesSquare_iff.1 hsquare)⟩
    · rintro ⟨hn, hlong⟩
      have h := ofEntries_eq_throw_iff.2 ⟨hn, hlong.1.ne', rfl⟩
      exact ⟨_, h, ShapeError.namesSquare_iff.2 ((rows_eq_columns_iff h).2 hlong)⟩

/-- Two rows of which the second is too short, two workers for one task, and five entries for a
size of two. -/
theorem refused_namesSquare_iff_two :
    (ofRows [[1, 2], [3]] = .error ⟨2, 1⟩ ∧ ¬ (ShapeError.mk 2 1).NamesSquare) ∧
    (ofPairs #[1, 2] #[1] (fun _ _ a b ↦ a + b) 4 = throw ⟨2, 1⟩ ∧
      ¬ (ShapeError.mk 2 1).NamesSquare) ∧
    ∃ e, ofEntries 2 #[1, 2, 3, 4, 5] = throw e ∧ e.NamesSquare := by
  obtain ⟨-, hrows, hpairs, hentries⟩ := refused_namesSquare_iff Nat Nat Nat
  exact ⟨⟨rfl, hrows [[1, 2], [3]] _ rfl⟩,
    ⟨rfl, hpairs #[1, 2] #[1] (fun _ _ a b ↦ a + b) 4 _ rfl⟩,
    (hentries 2 #[1, 2, 3, 4, 5]).2 (by decide)⟩

/-- Not every text that refuses a flat list is about two different numbers. -/
theorem not_forall_rows_ne_columns : ¬ ∀ n (data : Array Nat) e, n * n < Word.bound →
    ofEntries n data = throw e → e.rows ≠ e.columns := by
  intro h
  exact h 2 #[1, 2, 3, 4, 5] ⟨2, 2⟩ (by decide) rfl rfl

/-! ### What the size decides -/

/-- A size and entries end in one of three ways: with the matrix that has them, with the error that
a shape is refused with, or with a fault. -/
structure DecidedBySize (n : Nat) (entries : List α) (refusal : ShapeError → ε)
    (x : ExceptT ε Checked (CostMatrix α)) : Prop where
  /-- The matrix is the one with this size and these entries. -/
  eq_pure_iff : ∀ m, x = pure m ↔ n < 0x100000000 ∧ m.size = n ∧ m.entries = entries
  /-- There is one exactly if there is an entry for each position. -/
  exists_pure_iff : (∃ m, x = pure m) ↔ n < 0x100000000 ∧ entries.length = n * n
  /-- Otherwise the number of whole columns is reported. -/
  eq_throw_iff : ∀ e, x = throw e ↔ n < 0x100000000 ∧ entries.length ≠ n * n ∧
    e = refusal ⟨n, if n = 0 then entries.length else entries.length / n⟩
  /-- The entries do not matter if the square of the size is not a word. -/
  run_eq_error_iff : ∀ fault, x.run = .error fault ↔
    0x100000000 ≤ n ∧ fault = .overflow .multiply

theorem decidedBySize_ofEntries (n : Nat) (data : Array α) :
    DecidedBySize n data.toList id (ofEntries n data) where
  eq_pure_iff m := by
    constructor
    · intro h
      obtain ⟨hn, hdata⟩ := eq_of_ofEntries h
      refine ⟨Nat.lt_of_not_le fun hge ↦ ?_, hn.symm, hdata.symm⟩
      rw [ofEntries_eq_fault hge] at h
      cases h
    · rintro ⟨hn, rfl, hdata⟩
      exact (ofEntries_eq_pure_iff (Word.mul_self_lt_bound_iff.2 hn)).2 ⟨rfl, hdata.symm⟩
  exists_pure_iff := by
    rw [Array.length_toList]
    rcases ofEntries_cases n data with ⟨hn, hsize, hm⟩ | ⟨_, hsize, hthrow⟩ | ⟨hn, hfault⟩
    · exact iff_of_true hm ⟨hn, hsize⟩
    · exact iff_of_false (fun ⟨m, hm⟩ ↦ Reading.throw_ne_pure (hthrow.symm.trans hm))
        fun h ↦ hsize h.2
    · exact hfault ▸ iff_of_false nofun fun h ↦ Nat.not_lt.2 hn h.1
  eq_throw_iff _ := ofEntries_eq_throw_iff
  run_eq_error_iff fault := by
    rcases ofEntries_cases n data with ⟨hn, -, m, hm⟩ | ⟨hn, -, hthrow⟩ | ⟨hn, hfault⟩
    · exact hm ▸ iff_of_false nofun fun h ↦ Nat.not_lt.2 h.1 hn
    · exact hthrow ▸ iff_of_false nofun fun h ↦ Nat.not_lt.2 h.1 hn
    · rw [hfault, and_iff_right hn]
      exact ⟨fun h ↦ (Except.error.inj h).symm, fun h ↦ congrArg Except.error h.symm⟩

theorem DecidedBySize.adapt {entries : List α} {x : ExceptT ShapeError Checked (CostMatrix α)}
    (h : DecidedBySize n entries id x) (refusal : ShapeError → ε) :
    DecidedBySize n entries refusal (x.adapt refusal) where
  eq_pure_iff m := Reading.adapt_eq_pure_iff.trans (h.eq_pure_iff m)
  exists_pure_iff := (exists_congr fun _ ↦ Reading.adapt_eq_pure_iff).trans h.exists_pure_iff
  eq_throw_iff e := by
    rw [Reading.adapt_eq_throw_iff]
    constructor
    · rintro ⟨shape, hshape, rfl⟩
      obtain ⟨hn, hlength, rfl⟩ := (h.eq_throw_iff shape).1 hshape
      exact ⟨hn, hlength, rfl⟩
    · rintro ⟨hn, hlength, rfl⟩
      exact ⟨_, (h.eq_throw_iff _).2 ⟨hn, hlength, rfl⟩, rfl⟩
  run_eq_error_iff fault := Reading.run_adapt_eq_error_iff.trans (h.run_eq_error_iff fault)

open Json in
/-- **A flat list and a JSON text give a matrix, a shape error or a fault, and the size decides
which.** For sizes below `0x100000000` there is a matrix exactly if there are as many entries as
positions, and a shape error otherwise. For all others there is a fault. -/
theorem decidedBySize_ofEntries_and_ofJson (α : Type) (W : CostType) :
    (∀ n (data : Array α), DecidedBySize n data.toList id (ofEntries n data)) ∧
    ∀ text (v : Value) n data, tokens text.toList = v.tokens → v.Carries W n data →
      DecidedBySize n data .shape (ofJson W text) := by
  refine ⟨decidedBySize_ofEntries, fun text v n data htext hv ↦ ?_⟩
  rw [ofJson_eq_of_carries htext hv]
  exact (decidedBySize_ofEntries n data.toArray).adapt JsonError.shape

/-- No entries for the least size whose square is not a word, as a list and as a text. -/
theorem decidedBySize_ofEntries_and_ofJson_leastFault :
    (ofEntries 0x100000000 (#[] : Array String)).run = .error (.overflow .multiply) ∧
    (ofJson (.signed 7) "[4294967296,[]]").run = .error (.overflow .multiply) := by
  obtain ⟨hentries, hjson⟩ := decidedBySize_ofEntries_and_ofJson String (.signed 7)
  have htokens : Json.tokens "[4294967296,[]]".toList =
      (Json.Value.array [.ofInt 4294967296, .array []]).tokens := by decide +kernel
  have hcarries : (Json.Value.array [.ofInt 4294967296, .array []]).Carries (.signed 7)
      0x100000000 [] := ⟨_, _, rfl, by decide +kernel, rfl⟩
  exact ⟨((hentries _ #[]).run_eq_error_iff _).2 ⟨Nat.le_refl _, rfl⟩,
    ((hjson _ _ _ _ htokens hcarries).run_eq_error_iff _).2 ⟨Nat.le_refl _, rfl⟩⟩

/-- Not every size and flat list give a matrix or a shape error. -/
theorem not_forall_ofEntries_answers : ¬ ∀ n < Word.bound, ∀ data : Array Int,
    (data.size = n * n → ∃ m, ofEntries n data = pure m) ∧
    (data.size ≠ n * n → ∃ e, ofEntries n data = throw e) := by
  intro h
  obtain ⟨e, he⟩ := (h 0x100000000 (by decide) #[]).2 (by decide)
  rw [ofEntries_eq_fault (Nat.le_refl _)] at he
  cases he

end CostMatrix

end LinearAssignment
