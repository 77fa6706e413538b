import LiveScheme.Buffer.Line
import LiveScheme.Proofs.Editor.Lines
import Mathlib.Data.List.TakeWhile

/-!
# The place of a cursor

A cursor is a line and a column. The offset of a cursor counts lines by their line feeds, but the
text in front of a cursor and the word at it are taken from lines that every vertical separator
ends. Both mean the same place for every cursor of a document exactly when the line ends of the two
kinds agree, up to separators that have nothing but line feeds behind them.
-/

namespace LiveScheme.Buffer

open Text

variable {text line : List Char} {n : Nat} {p : Position}

/-- The cursor stands in a line that the line feeds of the text make, or at its end. -/
def Position.LiesIn (text : List Char) (p : Position) : Prop :=
  ∃ line, (splitAt '\n' text)[p.line]? = some line ∧ p.column ≤ line.length

/-- The end of the text behind its last line feed. -/
def lastLine (text : List Char) : List Char := takeEnd (· != '\n') text

/-- The word around the end of `before` when `after` follows, and the column where it starts if the
end has the given column. -/
def wordBetween (before after : List Char) (column : Nat) : List Char × Nat :=
  let start := takeEnd (!isDelimiter ·) before
  (start ++ after.takeWhile (!isDelimiter ·), column - start.length)

/-- A line ends in a text at line feeds, with or without a return in front, and at other characters
only when nothing but line feeds follows them. -/
def FeedsEndLines (text : List Char) : Prop :=
  ∀ before c after, text = before ++ c :: after → endsLine c = true → c ≠ '\n' →
    ¬ JoinsNext c after → ∀ d ∈ after, d = '\n'

section Split

theorem splitAt_ne_nil (sep : Char) (cs : List Char) : splitAt sep cs ≠ [] := by
  cases cs with
  | nil => exact List.cons_ne_nil _ _
  | cons c cs =>
    rw [splitAt]
    split
    · exact List.cons_ne_nil _ _
    · split <;> exact List.cons_ne_nil _ _

theorem splitAt_of_not_mem {sep : Char} {cs : List Char} (h : sep ∉ cs) : splitAt sep cs = [cs] := by
  induction cs with
  | nil => rfl
  | cons c cs ih =>
    have hc : c ≠ sep := fun heq => h (heq ▸ List.mem_cons_self)
    rw [splitAt, if_neg hc, ih fun hmem => h (List.mem_cons_of_mem c hmem)]

theorem splitAt_append {sep : Char} {cs : List Char} (h : sep ∉ cs) (rest : List Char) :
    splitAt sep (cs ++ sep :: rest) = cs :: splitAt sep rest := by
  induction cs with
  | nil => rw [List.nil_append, splitAt, if_pos rfl]
  | cons c cs ih =>
    have hc : c ≠ sep := fun heq => h (heq ▸ List.mem_cons_self)
    rw [List.cons_append, splitAt, if_neg hc, ih fun hmem => h (List.mem_cons_of_mem c hmem)]

theorem splitAt_pair (rest : List Char) :
    splitAt '\n' ('\r' :: '\n' :: rest) = ['\r'] :: splitAt '\n' rest := by
  have hcarriage : '\n' ∉ ['\r'] := by decide
  exact splitAt_append hcarriage rest

/-- Induction on a text by the first place of a separator. -/
theorem separator_induction (sep : Char) {motive : List Char → Prop}
    (last : ∀ part, sep ∉ part → motive part)
    (first : ∀ part rest, sep ∉ part → motive rest → motive (part ++ sep :: rest))
    (text : List Char) : motive text := by
  induction hlength : text.length using Nat.strongRecOn generalizing text with
  | ind n ih =>
    subst hlength
    by_cases h : sep ∈ text
    · obtain ⟨part, rest, rfl, hpart⟩ := List.eq_append_cons_of_mem h
      exact first part rest hpart (ih rest.length (by simp; omega) rest rfl)
    · exact last text h

/-- Induction on a text by its first line feed. -/
theorem feeds_induction {motive : List Char → Prop} (last : ∀ line, '\n' ∉ line → motive line)
    (feed : ∀ line rest, '\n' ∉ line → motive rest → motive (line ++ '\n' :: rest))
    (text : List Char) : motive text :=
  separator_induction '\n' last feed text

end Split

section Offset

theorem lineStart_append (base : Nat) (hline : '\n' ∉ line) (rest : List Char) :
    lineStart base (n + 1) (line ++ '\n' :: rest) = lineStart (base + line.length + 1) n rest := by
  induction line generalizing base with
  | nil => rw [List.nil_append, lineStart, if_pos rfl, List.length_nil, Nat.add_zero]
  | cons c line ih =>
    have hc : c ≠ '\n' := fun heq => hline (heq ▸ List.mem_cons_self)
    rw [List.cons_append, lineStart, if_neg hc,
      ih (base + 1) fun hmem => hline (List.mem_cons_of_mem c hmem), List.length_cons]
    congr 2
    omega

/-- Where a line stands in the text: behind a line feed or at the start, in front of a line feed or
at the end. -/
theorem exists_lineStart (h : (splitAt '\n' text)[n]? = some line) (base : Nat) :
    ∃ front rest, text = front ++ line ++ rest ∧ lineStart base n text = some (base + front.length) ∧
      '\n' ∉ line ∧ (front = [] ∨ ∃ before, front = before ++ ['\n']) ∧
      (rest = [] ∨ ∃ after, rest = '\n' :: after) := by
  induction text using feeds_induction generalizing n base with
  | last first hfirst =>
    rw [splitAt_of_not_mem hfirst] at h
    cases n with
    | zero =>
      cases h
      exact ⟨[], [], by simp, by simp [lineStart], hfirst, .inl rfl, .inl rfl⟩
    | succ n => simp at h
  | feed first more hfirst ih =>
    rw [splitAt_append hfirst] at h
    cases n with
    | zero =>
      cases h
      exact ⟨[], '\n' :: more, by simp, by simp [lineStart], hfirst, .inl rfl, .inr ⟨more, rfl⟩⟩
    | succ n =>
      obtain ⟨front, rest, rfl, hstart, hline, hfront, hrest⟩ := ih h (base + first.length + 1)
      refine ⟨first ++ '\n' :: front, rest, by simp, ?_, hline, .inr ?_, hrest⟩
      · rw [lineStart_append base hfirst, hstart, List.length_append, List.length_cons]
        congr 1
        omega
      · rcases hfront with rfl | ⟨before, rfl⟩
        · exact ⟨first, rfl⟩
        · exact ⟨first ++ '\n' :: before, by simp⟩

/-- The offset of a cursor cuts the text within its line. -/
theorem offsetOf_cuts (hline : (splitAt '\n' text)[p.line]? = some line)
    (hcolumn : p.column ≤ line.length) : ∃ front rest,
      text.take (offsetOf text p.line p.column).toNat = front ++ line.take p.column ∧
      text.drop (offsetOf text p.line p.column).toNat = line.drop p.column ++ rest ∧
      '\n' ∉ line ∧ (front = [] ∨ ∃ before, front = before ++ ['\n']) ∧
      (rest = [] ∨ ∃ after, rest = '\n' :: after) := by
  obtain ⟨front, rest, rfl, hstart, hfeed, hfront, hrest⟩ := exists_lineStart hline 0
  have hoffset : (offsetOf (front ++ line ++ rest) p.line p.column).toNat =
      front.length + p.column := by
    rw [offsetOf, Int.toNat_natCast, hstart]
    simp only [List.length_append]
    omega
  refine ⟨front, rest, ?_, ?_, hfeed, hfront, hrest⟩
  · rw [hoffset, List.append_assoc, List.take_length_add_append, List.take_append_of_le_length hcolumn]
  · rw [hoffset, List.append_assoc, List.drop_length_add_append, List.drop_append_of_le_length hcolumn]

end Offset

section TakeEnd

variable {keep : Char → Bool}

theorem takeEnd_of_forall {cs : List Char} (h : ∀ c ∈ cs, keep c = true) : takeEnd keep cs = cs := by
  have hall : cs.reverse.takeWhile keep = cs.reverse :=
    List.takeWhile_eq_self_iff.mpr fun c hc => h c (List.mem_reverse.mp hc)
  rw [takeEnd, hall, List.reverse_reverse]

theorem takeEnd_append {c : Char} (hc : keep c = false) (before cs : List Char) :
    takeEnd keep (before ++ [c] ++ cs) = takeEnd keep cs := by
  have hstop : ([c] ++ before.reverse).takeWhile keep = [] := by
    simp [hc]
  rw [takeEnd, takeEnd, List.reverse_append, List.reverse_append, List.reverse_singleton,
    List.takeWhile_append, hstop, List.append_nil]
  split
  · next hall => rw [(List.takeWhile_prefix keep).eq_of_length hall]
  · rfl

end TakeEnd

section Lines

variable {c : Char} {rest : List Char}

theorem splitAt_cons_of_ne {sep : Char} (hc : c ≠ sep) (cs : List Char) : ∃ first more,
    splitAt sep cs = first :: more ∧ splitAt sep (c :: cs) = (c :: first) :: more := by
  obtain ⟨first, more, h⟩ := List.exists_cons_of_ne_nil (splitAt_ne_nil sep cs)
  exact ⟨first, more, h, by rw [splitAt, if_neg hc, h]⟩

theorem lines_cons_feed (rest : List Char) : lines ('\n' :: rest) = ['\n'] :: lines rest :=
  lines_cons_of_ends (fun h => by cases h.1) rfl

theorem feedsEndLines_cons : FeedsEndLines (c :: rest) ↔
    (endsLine c = true → c ≠ '\n' → ¬ JoinsNext c rest → ∀ d ∈ rest, d = '\n') ∧
      FeedsEndLines rest := by
  constructor
  · intro h
    exact ⟨h [] c rest rfl, fun before d after heq => h (c :: before) d after (congrArg _ heq)⟩
  · rintro ⟨hfirst, hrest⟩ before d after heq
    cases before with
    | nil =>
      cases heq
      exact hfirst
    | cons e before =>
      cases heq
      exact hrest before d after rfl

instance (c : Char) (rest : List Char) : Decidable (JoinsNext c rest) :=
  inferInstanceAs (Decidable (_ ∧ _))

instance decidableFeedsEndLines : DecidablePred FeedsEndLines
  | [] => isTrue fun before c after heq => by simp at heq
  | _ :: rest =>
    have := decidableFeedsEndLines rest
    decidable_of_iff' _ feedsEndLines_cons

/-- Each line is found at its number, with nothing or a line feed behind it; one that is not found
is empty. -/
def ShowsLines (shown ls : List (List Char)) : Prop :=
  ∀ (n : Nat) line, ls[n]? = some line →
    ∃ tail, (tail = [] ∨ tail = ['\n']) ∧ (shown[n]?).getD [] = line ++ tail

theorem showsLines_cons {shown ls : List (List Char)} {tail : List Char} (first : List Char)
    (htail : tail = [] ∨ tail = ['\n']) (h : ShowsLines shown ls) :
    ShowsLines ((first ++ tail) :: shown) (first :: ls) := by
  intro n line hline
  cases n with
  | zero =>
    cases hline
    exact ⟨tail, htail, rfl⟩
  | succ n => exact h n line hline

theorem showsLines_resume (c : Char) {shown more : List (List Char)} {first : List Char}
    (h : ShowsLines shown (first :: more)) :
    ShowsLines (resume [c] shown) ((c :: first) :: more) := by
  intro n line hline
  cases n with
  | zero =>
    cases hline
    obtain ⟨tail, htail, hfirst⟩ := h 0 first rfl
    refine ⟨tail, htail, ?_⟩
    cases shown with
    | nil => exact congrArg (c :: ·) hfirst
    | cons l ls => exact congrArg (c :: ·) hfirst
  | succ n =>
    obtain ⟨tail, htail, hfound⟩ := h (n + 1) line hline
    refine ⟨tail, htail, ?_⟩
    cases shown with
    | nil => exact hfound
    | cons l ls => exact hfound

/-- Lines of line feeds only. -/
theorem showsLines_feeds (h : ∀ d ∈ rest, d = '\n') : ∃ more, splitAt '\n' rest = [] :: more ∧
    ShowsLines (lines rest) more := by
  induction rest with
  | nil => exact ⟨[], rfl, fun n line hline => by simp at hline⟩
  | cons d rest ih =>
    obtain ⟨rfl, hrest⟩ := List.forall_mem_cons.mp h
    obtain ⟨more, hsplit, hmore⟩ := ih hrest
    refine ⟨[] :: more, by rw [splitAt, if_pos rfl, hsplit], ?_⟩
    rw [lines_cons_feed]
    exact showsLines_cons [] (.inr rfl) hmore

theorem showsLines_of_feedsEndLines (h : FeedsEndLines text) :
    ShowsLines (lines text) (splitAt '\n' text) := by
  induction text using lines_induction with
  | nil =>
    intro n line hline
    cases n with
    | zero =>
      cases hline
      exact ⟨[], .inl rfl, rfl⟩
    | succ n => simp [splitAt] at hline
  | pair rest ih =>
    rw [lines_pair, splitAt_pair]
    exact showsLines_cons ['\r'] (.inr rfl)
      (ih (feedsEndLines_cons.mp (feedsEndLines_cons.mp h).2).2)
  | ends c rest hc hj ih =>
    obtain ⟨hrest, hmore⟩ := feedsEndLines_cons.mp h
    rw [lines_cons_of_ends hj hc]
    by_cases hfeed : c = '\n'
    · subst hfeed
      rw [splitAt, if_pos rfl]
      exact showsLines_cons [] (.inr rfl) (ih hmore)
    · obtain ⟨first, more, hsplit, hcons⟩ := splitAt_cons_of_ne hfeed rest
      obtain ⟨more', hsplit', hshows⟩ := showsLines_feeds (hrest hc hfeed hj)
      cases hsplit.symm.trans hsplit'
      rw [hcons]
      exact showsLines_cons [c] (.inl rfl) hshows
  | goes c rest hc ih =>
    have hne : c ≠ '\n' := fun heq => by
      subst heq
      cases hc
    obtain ⟨first, more, hsplit, hcons⟩ := splitAt_cons_of_ne hne rest
    have hshows := ih (feedsEndLines_cons.mp h).2
    rw [hsplit] at hshows
    rw [lines_cons_of_not rest hc, hcons]
    exact showsLines_resume c hshows

/-- Each line begins what is found at its number. -/
def BeginsLines (shown ls : List (List Char)) : Prop :=
  ∀ (n : Nat) line, ls[n]? = some line → line <+: (shown[n]?).getD []

theorem BeginsLines.cons {shown ls : List (List Char)} {first begun : List Char}
    (h : BeginsLines (first :: shown) (begun :: ls)) : begun <+: first ∧ BeginsLines shown ls :=
  ⟨h 0 begun rfl, fun n line hline => h (n + 1) line hline⟩

theorem BeginsLines.of_resume {shown more : List (List Char)} {first : List Char}
    (h : BeginsLines (resume [c] shown) ((c :: first) :: more)) :
    BeginsLines shown (first :: more) := by
  cases shown with
  | nil =>
    have hfirst : first <+: [] := (List.cons_prefix_cons.mp h.cons.1).2
    intro n line hline
    cases n with
    | zero =>
      cases hline
      exact hfirst
    | succ n => exact h (n + 1) line hline
  | cons l ls =>
    obtain ⟨hfirst, hmore⟩ := h.cons
    intro n line hline
    cases n with
    | zero =>
      cases hline
      exact (List.cons_prefix_cons.mp hfirst).2
    | succ n => exact hmore n line hline

theorem splitAt_eq_cons (text : List Char) : ∃ first more, splitAt '\n' text = first :: more ∧
    '\n' ∉ first := by
  obtain ⟨first, more, h⟩ := List.exists_cons_of_ne_nil (splitAt_ne_nil '\n' text)
  have hfirst : (splitAt '\n' text)[0]? = some first := by rw [h]; rfl
  obtain ⟨-, -, -, -, hmem, -, -⟩ := exists_lineStart hfirst 0
  exact ⟨first, more, h, hmem⟩

/-- When nothing stands in front of the first line feed and the later lines begin what is found,
there are line feeds only. -/
theorem BeginsLines.feeds {more : List (List Char)} (hsplit : splitAt '\n' rest = [] :: more)
    (h : BeginsLines (lines rest) more) : ∀ d ∈ rest, d = '\n' := by
  induction rest generalizing more with
  | nil => exact List.forall_mem_nil _
  | cons d rest ih =>
    by_cases hd : d = '\n'
    · subst hd
      rw [splitAt, if_pos rfl] at hsplit
      obtain ⟨first, later, hrest, hfirst⟩ := splitAt_eq_cons rest
      cases (List.cons.inj hsplit).2
      rw [lines_cons_feed, hrest] at h
      obtain ⟨hbegins, hlater⟩ := h.cons
      have hempty : first = [] := by
        cases first with
        | nil => rfl
        | cons e first =>
          obtain ⟨rfl, -⟩ := List.cons_prefix_cons.mp hbegins
          exact absurd List.mem_cons_self hfirst
      subst hempty
      exact List.forall_mem_cons.mpr ⟨rfl, ih hrest hlater⟩
    · obtain ⟨first, later, -, hcons⟩ := splitAt_cons_of_ne hd rest
      rw [hcons] at hsplit
      cases hsplit

theorem feedsEndLines_of_beginsLines (h : BeginsLines (lines text) (splitAt '\n' text)) :
    FeedsEndLines text := by
  induction text using lines_induction with
  | nil =>
    intro before c after heq
    simp at heq
  | pair rest ih =>
    rw [lines_pair, splitAt_pair] at h
    refine feedsEndLines_cons.mpr ⟨fun _ _ hj => absurd ⟨rfl, rfl⟩ hj, ?_⟩
    exact feedsEndLines_cons.mpr ⟨fun _ hne => absurd rfl hne, ih h.cons.2⟩
  | ends c rest hc hj ih =>
    rw [lines_cons_of_ends hj hc] at h
    by_cases hfeed : c = '\n'
    · subst hfeed
      rw [splitAt, if_pos rfl] at h
      exact feedsEndLines_cons.mpr ⟨fun _ hne => absurd rfl hne, ih h.cons.2⟩
    · obtain ⟨first, more, hsplit, hcons⟩ := splitAt_cons_of_ne hfeed rest
      rw [hcons] at h
      obtain ⟨hbegins, hmore⟩ := h.cons
      have hempty : first = [] := List.prefix_nil.mp (List.cons_prefix_cons.mp hbegins).2
      subst hempty
      have hfeeds := hmore.feeds hsplit
      refine feedsEndLines_cons.mpr ⟨fun _ _ _ => hfeeds, ?_⟩
      intro before d after heq _ hne
      subst heq
      exact absurd (hfeeds d (by simp)) hne
  | goes c rest hc ih =>
    have hne : c ≠ '\n' := fun heq => by
      subst heq
      cases hc
    obtain ⟨first, more, hsplit, hcons⟩ := splitAt_cons_of_ne hne rest
    rw [lines_cons_of_not rest hc, hcons] at h
    refine feedsEndLines_cons.mpr ⟨fun hends => ?_, ih (hsplit ▸ h.of_resume)⟩
    rw [hc] at hends
    cases hends

end Lines

section Word

theorem isDelimiter_feed : isDelimiter '\n' = true := by decide

/-- Neither what stands in front of the line nor what stands behind it is part of a word in it. -/
theorem wordBetween_of_cuts {front rest : List Char}
    (hfront : front = [] ∨ ∃ before, front = before ++ ['\n'])
    (hrest : rest = [] ∨ ∃ after, rest = '\n' :: after) (before after : List Char) (column : Nat) :
    wordBetween (front ++ before) (after ++ rest) column = wordBetween before after column := by
  have hstart : takeEnd (!isDelimiter ·) (front ++ before) = takeEnd (!isDelimiter ·) before := by
    rcases hfront with rfl | ⟨lines, rfl⟩
    · rfl
    · exact takeEnd_append (by simp [isDelimiter_feed]) lines before
  have hend : (after ++ rest).takeWhile (!isDelimiter ·) = after.takeWhile (!isDelimiter ·) := by
    rcases hrest with rfl | ⟨lines, rfl⟩
    · rw [List.append_nil]
    · have hstop : ('\n' :: lines).takeWhile (!isDelimiter ·) = [] := by
        simp [isDelimiter_feed]
      rw [List.takeWhile_append, hstop, List.append_nil]
      split
      · next hall => rw [(List.takeWhile_prefix _).eq_of_length hall]
      · rfl
  rw [wordBetween, wordBetween, hstart, hend]

theorem wordAround_eq {column : Nat} (h : column ≤ line.length) :
    wordAround line column = .ok (wordBetween (line.take column) (line.drop column) column) := by
  rw [wordAround, if_neg (Nat.not_lt.mpr h)]
  rfl

end Word

section Cursor

/-- The text behind the last line feed in front of a cursor is the front of its line. -/
theorem lastLine_take (hline : (splitAt '\n' text)[p.line]? = some line)
    (hcolumn : p.column ≤ line.length) :
    lastLine (text.take (offsetOf text p.line p.column).toNat) = line.take p.column := by
  obtain ⟨front, rest, htake, -, hfeed, hfront, -⟩ := offsetOf_cuts hline hcolumn
  have hkeep : ∀ c ∈ line.take p.column, (c != '\n') = true := fun c hc =>
    bne_iff_ne.mpr fun heq => hfeed (heq ▸ List.mem_of_mem_take hc)
  rw [htake, lastLine]
  rcases hfront with rfl | ⟨before, rfl⟩
  · exact takeEnd_of_forall hkeep
  · rw [takeEnd_append (by simp), takeEnd_of_forall hkeep]

theorem linePrefix_eq_take {tail : List Char} (hcolumn : p.column ≤ line.length)
    (hshown : (lineAt? text p.line).getD [] = line ++ tail) :
    linePrefix text p = line.take p.column := by
  rw [linePrefix, hshown, List.take_append_of_le_length hcolumn]

theorem wordAt_of_shown {tail : List Char} (hline : (splitAt '\n' text)[p.line]? = some line)
    (hcolumn : p.column ≤ line.length) (htail : tail = [] ∨ tail = ['\n'])
    (hshown : (lineAt? text p.line).getD [] = line ++ tail) :
    let offset := (offsetOf text p.line p.column).toNat
    let (word, start) := wordBetween (text.take offset) (text.drop offset) p.column
    wordAt text p = .ok (if word.isEmpty then none else some word, ⟨p.line, start⟩) := by
  obtain ⟨front, rest, htake, hdrop, -, hfront, hrest⟩ := offsetOf_cuts hline hcolumn
  have hend : tail = [] ∨ ∃ after, tail = '\n' :: after := htail.imp_right fun h => ⟨[], h⟩
  dsimp only
  rw [htake, hdrop, wordBetween_of_cuts hfront hrest, wordAt]
  cases hfound : lineAt? text p.line with
  | none =>
    -- a last line without a character is not found, and no word is in it
    rw [hfound] at hshown
    obtain ⟨rfl, -⟩ := List.append_eq_nil_iff.mp hshown.symm
    have hzero : p.column = 0 := Nat.le_zero.mp hcolumn
    cases p
    cases hzero
    rfl
  | some shown =>
    have hshown : shown = line ++ tail := by rwa [hfound] at hshown
    subst hshown
    have hwithin : p.column ≤ (line ++ tail).length := by
      rw [List.length_append]
      omega
    have hword := wordBetween_of_cuts (.inl rfl) hend (line.take p.column) (line.drop p.column)
      p.column
    rw [List.nil_append] at hword
    dsimp only
    rw [wordAround_eq hwithin, List.take_append_of_le_length hcolumn,
      List.drop_append_of_le_length hcolumn, hword]
    rfl

end Cursor

/-- The text in front of a cursor begins behind the last line feed in front of the cursor's offset,
for every cursor of the text, if and only if its lines end at line feeds, or at other separators
with nothing but line feeds behind. Then the word at each cursor, too, is that around its offset. -/
theorem cursor_agrees (text : List Char) :
    ((∀ p : Position, p.LiesIn text →
        linePrefix text p = lastLine (text.take (offsetOf text p.line p.column).toNat)) ↔
      FeedsEndLines text) ∧
    (FeedsEndLines text → ∀ p : Position, p.LiesIn text →
      let offset := (offsetOf text p.line p.column).toNat
      let (word, start) := wordBetween (text.take offset) (text.drop offset) p.column
      wordAt text p = .ok (if word.isEmpty then none else some word, ⟨p.line, start⟩)) := by
  refine ⟨⟨fun hagree => feedsEndLines_of_beginsLines fun n line hline => ?_, ?_⟩, ?_⟩
  · have hend := hagree ⟨n, line.length⟩ ⟨line, hline, Nat.le_refl _⟩
    rw [lastLine_take (p := ⟨n, line.length⟩) hline (Nat.le_refl _), List.take_length] at hend
    rw [← hend]
    exact List.take_prefix _ _
  · rintro hends p ⟨line, hline, hcolumn⟩
    obtain ⟨tail, -, hshown⟩ := showsLines_of_feedsEndLines hends p.line line hline
    rw [lastLine_take hline hcolumn]
    exact linePrefix_eq_take hcolumn hshown
  · rintro hends p ⟨line, hline, hcolumn⟩
    obtain ⟨tail, htail, hshown⟩ := showsLines_of_feedsEndLines hends p.line line hline
    exact wordAt_of_shown hline hcolumn htail hshown

/-- Lines that end with a return and a line feed, and a last one with a form feed. -/
def returned : List Char := "(f\r\n ab c\x0c\n".toList

theorem cursor_agrees_returned : FeedsEndLines returned ∧ (⟨1, 2⟩ : Position).LiesIn returned ∧
    linePrefix returned ⟨1, 2⟩ = [' ', 'a'] ∧
    wordAt returned ⟨1, 2⟩ = .ok (some ['a', 'b'], ⟨1, 1⟩) := by
  have hends : FeedsEndLines returned := by decide
  have hlies : (⟨1, 2⟩ : Position).LiesIn returned := ⟨" ab c\x0c".toList, by decide, by decide⟩
  obtain ⟨hagree, hword⟩ := cursor_agrees returned
  refine ⟨hends, hlies, ?_, ?_⟩
  · rw [hagree.mpr hends _ hlies]
    decide
  · exact (hword hends _ hlies).trans (by decide)

end LiveScheme.Buffer
