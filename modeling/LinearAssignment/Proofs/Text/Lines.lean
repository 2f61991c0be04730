import LinearAssignment.Text.Blank
import LinearAssignment.Text.Source

/-!
# Lines and fields of a text

A source is split at the byte of a line end before its lines are decoded, and a text can be split at
the characters. Both give the same lines (`Source.exists_lines_ofString`), because no other
character has that byte in its encoding. The fields of a line come apart at every blank
(`fields_append_cons`), so they are nonempty and free of blanks, and a text that is one field is
read as itself.
-/

namespace LinearAssignment.Text

/-- The lines of a text: what stands between its line ends. The last one is empty if the text ends
with a line end. -/
def lines (text : String) : List String :=
  (text.toList.splitOn '\n').map String.ofList

/-! ### Lines of the source of a text -/

/-- A byte of the encoding of a character is the character itself, or has its highest bit set. -/
theorem toNat_of_mem_utf8EncodeChar {c : Char} {b : UInt8} (h : b ∈ String.utf8EncodeChar c) :
    b.toNat = c.toNat ∨ 128 ≤ b.toNat := by
  have high (ks : List Nat) (hks : ∀ k ∈ ks, 128 ≤ k ∧ k < 256) (hb : b ∈ ks.map UInt8.ofNat) :
      128 ≤ b.toNat := by
    obtain ⟨k, hk, rfl⟩ := List.mem_map.1 hb
    rw [UInt8.toNat_ofNat_of_lt' (hks k hk).2]
    exact (hks k hk).1
  simp only [String.utf8EncodeChar] at h
  split at h
  · rename_i hc
    refine .inl ?_
    rw [List.mem_singleton.1 h, UInt8.toNat_ofNat_of_lt' (Nat.lt_of_le_of_lt hc (by decide))]
    rfl
  split at h
  · exact .inr (high [_, _] (by simp; omega) h)
  split at h
  · exact .inr (high [_, _, _] (by simp; omega) h)
  · exact .inr (high [_, _, _, _] (by simp; omega) h)

/-- The byte of a line end encodes nothing else. -/
theorem newline_mem_utf8EncodeChar_iff {c : Char} :
    Source.newline ∈ String.utf8EncodeChar c ↔ c = '\n' := by
  constructor
  · intro h
    rcases toNat_of_mem_utf8EncodeChar h with hc | hc
    · exact Char.toNat_inj.1 hc.symm
    · exact absurd hc (by decide)
  · rintro rfl
    decide

/-- The bytes of a text are the encodings of its characters. -/
theorem bytes_ofString (text : String) :
    (Source.ofString text).bytes = text.toList.flatMap String.utf8EncodeChar := by
  rw [Source.ofString, ← String.utf8Encode_toList, List.utf8Encode, List.toList_data_toByteArray]

/-- There is a part before each separator, and one after the last. -/
theorem length_splitOn {α : Type} [BEq α] [LawfulBEq α] (a : α) (xs : List α) :
    (xs.splitOn a).length = xs.count a + 1 := by
  induction xs with
  | nil => rfl
  | cons x xs ih =>
    rw [List.splitOn_cons_eq_if_modifyHead, List.count_cons]
    split <;> rename_i hx
    · rw [List.length_cons, ih]
    · rw [List.length_modifyHead, ih, Nat.add_zero]

/-- What comes before the first separator is longer by what is put before it. -/
theorem splitOn_append_of_notMem {α : Type} [BEq α] [LawfulBEq α] {a : α} {xs : List α}
    (h : a ∉ xs) (ys : List α) : (xs ++ ys).splitOn a = (ys.splitOn a).modifyHead (xs ++ ·) := by
  induction xs with
  | nil => exact (congrFun List.modifyHead_id _).symm
  | cons x xs ih =>
    obtain ⟨hx, hxs⟩ := List.ne_and_not_mem_of_not_mem_cons h
    rw [List.cons_append, List.splitOn_cons_eq_if_modifyHead, if_neg (by simpa using Ne.symm hx),
      ih hxs]
    cases ys.splitOn a <;> rfl

/-- Splitting the bytes of a text gives the bytes of its parts. -/
theorem splitOn_flatMap_utf8EncodeChar (cs : List Char) :
    (cs.flatMap String.utf8EncodeChar).splitOn Source.newline =
      (cs.splitOn '\n').map (List.flatMap String.utf8EncodeChar) := by
  induction cs with
  | nil => rfl
  | cons c cs ih =>
    rw [List.flatMap_cons, List.splitOn_cons_eq_if_modifyHead]
    by_cases hc : c = '\n'
    · subst hc
      rw [if_pos (by decide), List.map_cons, ← ih]
      exact List.splitOn_append_cons_self_of_not_mem (List.not_mem_nil) _
    · rw [if_neg (by simpa using hc),
        splitOn_append_of_notMem (mt newline_mem_utf8EncodeChar_iff.1 hc), ih]
      cases cs.splitOn '\n' <;> rfl

/-- The bytes of a text are decoded to the text. -/
theorem decode_flatMap_utf8EncodeChar (cs : List Char) :
    Source.decode (cs.flatMap String.utf8EncodeChar) = .ok (String.ofList cs) := by
  have hbytes : (⟨(cs.flatMap String.utf8EncodeChar).toArray⟩ : ByteArray) = cs.utf8Encode := by
    rw [List.utf8Encode]
    ext1
    rw [← Array.toList_inj, List.toList_data_toByteArray]
  have hdecode : String.fromUTF8? cs.utf8Encode = some (String.ofList cs) := by
    rw [String.fromUTF8?, dif_pos ByteArray.isValidUTF8_utf8Encode]
    rfl
  rw [Source.decode, hbytes, hdecode]

/-- Every character has an encoding. -/
theorem flatMap_utf8EncodeChar_eq_nil_iff {cs : List Char} :
    cs.flatMap String.utf8EncodeChar = [] ↔ cs = [] := by
  refine ⟨fun h ↦ ?_, fun h ↦ h ▸ rfl⟩
  have hdecode := decode_flatMap_utf8EncodeChar cs
  rw [h, ← List.flatMap_nil, decode_flatMap_utf8EncodeChar] at hdecode
  exact (String.ofList_inj.1 (Except.ok.inj hdecode)).symm

/-- The source of a text has the lines of the text, without an empty last one. -/
theorem Source.exists_lines_ofString (text : String) :
    ∃ read, (Source.ofString text).lines = read.map .ok ∧
      (Text.lines text = read ∨ Text.lines text = read ++ [""]) := by
  obtain ⟨init, last, hparts⟩ : ∃ init last, text.toList.splitOn '\n' = init ++ [last] :=
    ⟨_, _, (List.dropLast_concat_getLast (List.splitOnP_ne_nil (· == '\n') text.toList)).symm⟩
  have hinit : init.map (decode ∘ List.flatMap String.utf8EncodeChar) =
      (init.map String.ofList).map .ok := by
    rw [List.map_map]
    exact List.map_congr_left fun part _ ↦ decode_flatMap_utf8EncodeChar part
  have hlines : (Source.ofString text).lines = (init.map String.ofList).map .ok ++
      (Source.ofString text).lastLine (last.flatMap String.utf8EncodeChar) := by
    simp only [Source.lines, bytes_ofString, splitOn_flatMap_utf8EncodeChar, hparts,
      List.map_append, List.map_cons, List.map_nil, List.dropLast_concat, List.getLastD_concat,
      List.map_map, ← hinit]
  have hbreaks : (Source.ofString text).breaks = false := rfl
  rw [hlines, Text.lines, hparts, lastLine, hbreaks, if_neg Bool.false_ne_true]
  by_cases hlast : last = []
  · exact ⟨init.map String.ofList, by simp [hlast], .inr (by simp [hlast])⟩
  · refine ⟨(init ++ [last]).map String.ofList, ?_, .inl rfl⟩
    rw [if_neg (by rwa [List.isEmpty_iff, flatMap_utf8EncodeChar_eq_nil_iff]),
      decode_flatMap_utf8EncodeChar, List.map_append, List.map_append]
    rfl

/-- A text of lines that end with a line end has these lines, and an empty last one. -/
theorem lines_join {ls : List String} (h : ∀ l ∈ ls, '\n' ∉ l.toList) :
    lines (String.join (ls.map (· ++ "\n"))) = ls ++ [""] := by
  induction ls with
  | nil => rfl
  | cons l ls ih =>
    obtain ⟨hl, hls⟩ := List.forall_mem_cons.1 h
    have hlist : (String.join ((l :: ls).map (· ++ "\n"))).toList =
        l.toList ++ '\n' :: (String.join (ls.map (· ++ "\n"))).toList := by
      simp [String.join_cons]
    rw [lines, hlist, List.splitOn_append_cons_self_of_not_mem hl, List.map_cons,
      String.ofList_toList, List.cons_append, ← ih hls, lines]

/-! ### Fields of a line -/

/-- A text without blanks that is not empty, so that it can stand as a field. -/
structure IsField (text : String) : Prop where
  /-- There is a character. -/
  ne_empty : text ≠ ""
  /-- No character separates fields. -/
  not_blank : ∀ c ∈ text.toList, isBlank c = false

instance : DecidablePred IsField := fun text ↦
  decidable_of_iff (text ≠ "" ∧ text.toList.all (isBlank · == false))
    ⟨fun h ↦ ⟨h.1, by simpa using h.2⟩, fun h ↦ ⟨h.ne_empty, by simpa using h.not_blank⟩⟩

/-- What stands between two separators contains none. -/
theorem eq_false_of_mem_splitOnP {α : Type} {p : α → Bool} {xs part : List α}
    (h : part ∈ xs.splitOnP p) : ∀ x ∈ part, p x = false := by
  induction xs generalizing part with
  | nil =>
    obtain rfl : part = [] := by simpa [List.splitOnP_nil] using h
    exact List.forall_mem_nil _
  | cons x xs ih =>
    rw [List.splitOnP_cons_eq_if_modifyHead] at h
    split at h <;> rename_i hx
    · rcases List.mem_cons.1 h with rfl | h
      · exact List.forall_mem_nil _
      · exact ih h
    · obtain ⟨first, rest, hsplit⟩ := List.exists_cons_of_ne_nil (List.splitOnP_ne_nil p xs)
      rw [hsplit, List.modifyHead_cons] at h
      rcases List.mem_cons.1 h with rfl | h
      · exact List.forall_mem_cons.2
          ⟨Bool.not_eq_true _ ▸ hx, ih (hsplit ▸ List.mem_cons_self)⟩
      · exact ih (hsplit ▸ List.mem_cons_of_mem first h)

theorem isField_of_mem_fields {text field : String} (h : field ∈ fields text) : IsField field := by
  obtain ⟨part, hpart, rfl⟩ := List.mem_map.1 h
  obtain ⟨hpart, hne⟩ := List.mem_filter.1 hpart
  exact ⟨by simpa using hne, by simpa using eq_false_of_mem_splitOnP hpart⟩

theorem IsField.fields_eq {text : String} (h : IsField text) : fields text = [text] := by
  rw [fields, List.splitOnP_eq_singleton h.not_blank]
  simp [h.ne_empty]

/-- A blank separates the fields before it from those after it. -/
theorem fields_append_cons {c : Char} (h : isBlank c) (left right : String) :
    fields (left ++ String.singleton c ++ right) = fields left ++ fields right := by
  have hlist : (left ++ String.singleton c ++ right).toList = left.toList ++ c :: right.toList := by
    simp
  rw [fields, hlist, List.splitOnP_append_cons _ _ h, List.filter_append, List.map_append]
  rfl

/-- Fields with blanks between them are read as the fields. -/
theorem fields_intercalate {texts : List String} (h : ∀ text ∈ texts, IsField text) :
    fields (" ".intercalate texts) = texts := by
  induction texts with
  | nil => rfl
  | cons text texts ih =>
    obtain ⟨htext, htexts⟩ := List.forall_mem_cons.1 h
    cases texts with
    | nil => rw [String.intercalate_singleton, htext.fields_eq]
    | cons next texts =>
      have hblank : String.singleton ' ' = " " := rfl
      rw [String.intercalate_cons_cons, ← hblank, fields_append_cons (by decide), htext.fields_eq,
        hblank, ih htexts, List.singleton_append]

/-- There is no line end in fields with blanks between them. -/
theorem newline_notMem_intercalate {texts : List String} (h : ∀ text ∈ texts, IsField text) :
    '\n' ∉ (" ".intercalate texts).toList := by
  induction texts with
  | nil => decide
  | cons text texts ih =>
    obtain ⟨htext, htexts⟩ := List.forall_mem_cons.1 h
    have hfirst : '\n' ∉ text.toList := fun hmem ↦
      absurd (htext.not_blank _ hmem) (by decide)
    cases texts with
    | nil => rwa [String.intercalate_singleton]
    | cons next texts =>
      rw [String.intercalate_cons_cons, String.toList_append, String.toList_append]
      simpa [hfirst] using ih htexts

end LinearAssignment.Text
