import LiveScheme.Proofs.Buffer.Cursor
import LiveScheme.Proofs.Reading.Lexeme
import Mathlib.Data.List.DropRight

/-!
# The word at a position

The word at a column of a line is the longest run of characters without delimiters that contains the
column or touches it. A line has such a run at every column up to its end, its line end included;
behind that there is none, and asking for it is a fault.
-/

namespace LiveScheme.Buffer

variable {line word : List Char} {column start : Nat}

/-- The run starts at the given column of the line, has no delimiters, cannot be made longer, and
contains or touches the other column. -/
structure IsWordAt (line : List Char) (column : Nat) (word : List Char) (start : Nat) : Prop where
  free : ∀ c ∈ word, isDelimiter c = false
  bounded : ∃ front back, line = front ++ word ++ back ∧ front.length = start ∧
    (∀ c ∈ front.getLast?, isDelimiter c = true) ∧ ∀ c ∈ back.head?, isDelimiter c = true
  start_le : start ≤ column
  le_end : column ≤ start + word.length

theorem exists_takeEnd (cs : List Char) : ∃ front, cs = front ++ takeEnd (!isDelimiter ·) cs ∧
    (∀ c ∈ front.getLast?, isDelimiter c = true) ∧
    ∀ c ∈ takeEnd (!isDelimiter ·) cs, isDelimiter c = false := by
  refine ⟨cs.rdropWhile (!isDelimiter ·), ?_, fun c hc => ?_, fun c hc => ?_⟩
  · exact (List.rdropWhile_append_rtakeWhile).symm
  · rw [List.rdropWhile, List.getLast?_reverse] at hc
    simpa using Token.head_dropWhile c hc
  · have hkeep := List.mem_rtakeWhile_imp (p := (!isDelimiter ·)) hc
    simpa using hkeep

theorem exists_takeWhile (cs : List Char) : ∃ back, cs = cs.takeWhile (!isDelimiter ·) ++ back ∧
    (∀ c ∈ back.head?, isDelimiter c = true) ∧
    ∀ c ∈ cs.takeWhile (!isDelimiter ·), isDelimiter c = false := by
  refine ⟨cs.dropWhile (!isDelimiter ·), List.takeWhile_append_dropWhile.symm, fun c hc => ?_,
    fun c hc => ?_⟩
  · simpa using Token.head_dropWhile c hc
  · have hkeep := List.mem_takeWhile_imp (p := (!isDelimiter ·)) hc
    simpa using hkeep

theorem isWordAt_wordBetween (h : column ≤ line.length) :
    let (word, start) := wordBetween (line.take column) (line.drop column) column
    IsWordAt line column word start := by
  obtain ⟨front, hfront, hlast, hbefore⟩ := exists_takeEnd (line.take column)
  obtain ⟨back, hback, hhead, hafter⟩ := exists_takeWhile (line.drop column)
  have hlength : front.length + (takeEnd (!isDelimiter ·) (line.take column)).length = column := by
    rw [← List.length_append, ← hfront, List.length_take_of_le h]
  refine ⟨List.forall_mem_append.mpr ⟨hbefore, hafter⟩, ⟨front, back, ?_, by omega, hlast, hhead⟩,
    Nat.sub_le _ _, ?_⟩
  · rw [← List.append_assoc, ← hfront, List.append_assoc, ← hback, List.take_append_drop]
  · rw [List.length_append]
    omega

/-- There is no other such run. -/
theorem IsWordAt.wordBetween_eq (h : IsWordAt line column word start) :
    wordBetween (line.take column) (line.drop column) column = (word, start) := by
  obtain ⟨hfree, ⟨front, back, rfl, rfl, hlast, hhead⟩, hstart, hend⟩ := h
  obtain ⟨k, rfl⟩ := Nat.exists_eq_add_of_le hstart
  have hk : k ≤ word.length := by omega
  have hkeep : ∀ {cs : List Char}, (∀ c ∈ cs, c ∈ word) → ∀ c ∈ cs, (!isDelimiter c) = true :=
    fun hcs c hc => by rw [hfree c (hcs c hc)]; rfl
  have htake : (front ++ word ++ back).take (front.length + k) = front ++ word.take k := by
    rw [List.append_assoc, List.take_length_add_append, List.take_append_of_le_length hk]
  have hdrop : (front ++ word ++ back).drop (front.length + k) = word.drop k ++ back := by
    rw [List.append_assoc, List.drop_length_add_append, List.drop_append_of_le_length hk]
  have hbefore : takeEnd (!isDelimiter ·) (front ++ word.take k) = word.take k := by
    have hword := takeEnd_of_forall (hkeep fun c (hc : c ∈ word.take k) => List.mem_of_mem_take hc)
    rcases List.eq_nil_or_concat' front with rfl | ⟨more, c, rfl⟩
    · exact hword
    · have hc : isDelimiter c = true := hlast c (by simp)
      rw [takeEnd_append (by simp [hc]), hword]
  have hafter : (word.drop k ++ back).takeWhile (!isDelimiter ·) = word.drop k := by
    have hword := hkeep fun c (hc : c ∈ word.drop k) => List.mem_of_mem_drop hc
    rw [List.takeWhile_append_of_pos hword]
    cases back with
    | nil => rw [List.takeWhile_nil, List.append_nil]
    | cons c back =>
      have hc : isDelimiter c = true := hhead c rfl
      rw [List.takeWhile_cons_of_neg (by simp [hc]), List.append_nil]
  rw [wordBetween, htake, hdrop, hbefore, hafter, List.take_append_drop,
    List.length_take_of_le hk, Nat.add_sub_cancel]

theorem exists_isWordAt (h : column ≤ line.length) : ∃ word start, IsWordAt line column word start :=
  ⟨_, _, isWordAt_wordBetween h⟩

theorem IsWordAt.column_le (h : IsWordAt line column word start) : column ≤ line.length := by
  obtain ⟨-, ⟨front, back, rfl, rfl, -, -⟩, -, hend⟩ := h
  simp only [List.length_append]
  omega

variable {text : List Char} {p : Position}

/-- Up to the end of its line a position has the word around it. -/
theorem wordAt_of_isWordAt (hline : lineAt? text p.line = some line)
    (h : IsWordAt line p.column word start) :
    wordAt text p = .ok (if word.isEmpty then none else some word, ⟨p.line, start⟩) := by
  rw [wordAt, hline]
  dsimp only
  rw [wordAround_eq h.column_le, h.wordBetween_eq]
  rfl

/-- Behind the end of the line it is a fault to ask for a word. -/
theorem wordAt_of_lt (hline : lineAt? text p.line = some line) (h : line.length < p.column) :
    wordAt text p = .error .offEnd := by
  rw [wordAt, hline]
  dsimp only
  rw [wordAround, if_pos h]
  rfl

theorem wordAt_of_none (hline : lineAt? text p.line = none) : wordAt text p = .ok (none, p) := by
  rw [wordAt, hline]

theorem wordAt_ok_iff : (∃ found, wordAt text p = .ok found) ↔
    ∀ line, lineAt? text p.line = some line → p.column ≤ line.length := by
  cases hline : lineAt? text p.line with
  | none => exact iff_of_true ⟨_, wordAt_of_none hline⟩ fun line h => by cases h
  | some line =>
    refine ⟨?_, fun h => ?_⟩
    · rintro ⟨found, h⟩ _ ⟨⟩
      by_contra hcolumn
      rw [wordAt_of_lt hline (Nat.not_le.mp hcolumn)] at h
      cases h
    · obtain ⟨word, start, hword⟩ := exists_isWordAt (h line rfl)
      exact ⟨_, wordAt_of_isWordAt hline hword⟩

end LiveScheme.Buffer
