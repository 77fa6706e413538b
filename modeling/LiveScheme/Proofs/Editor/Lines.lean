import LiveScheme.Editor.Session
import LiveScheme.Proofs.Machine.Becomes

/-!
# Collecting the lines of a reply

A reply is read line by line: blank lines in front of it are skipped, and it ends at the first blank
line behind it. Prompts are dropped from every line first. Lines come from a text that is cut after
each character that ends a line, so that they are never empty and make up the text again.
-/

namespace LiveScheme

namespace Text

/-- Puts the beginning of a line in front of lines. -/
def resume (start : List Char) : List (List Char) → List (List Char)
  | [] => if start.isEmpty then [] else [start]
  | line :: rest => (start ++ line) :: rest

theorem resume_nil (ls : List (List Char)) : resume [] ls = ls := by
  cases ls <;> rfl

theorem resume_append (as bs : List Char) (ls : List (List Char)) :
    resume (as ++ bs) ls = resume as (resume bs ls) := by
  cases ls with
  | nil => cases as <;> cases bs <;> simp [resume]
  | cons line rest => simp [resume]

/-- Only blanks end lines. -/
theorem endsLine_of_not_isBlank {c : Char} (h : isBlank c = false) : endsLine c = false := by
  cases hc : endsLine c with
  | false => rfl
  | true =>
    simp only [endsLine, Bool.or_eq_true, beq_iff_eq] at hc
    rcases hc with ((((((((rfl | rfl) | rfl) | rfl) | rfl) | rfl) | rfl) | rfl) | rfl) | rfl <;>
      revert h <;> decide

/-- A return and the line feed after it are one line end. -/
def JoinsNext (c : Char) (rest : List Char) : Prop := c = '\r' ∧ rest.head? = some '\n'

/-- Induction on a text by how its first line begins. -/
theorem lines_induction {motive : List Char → Prop} (nil : motive [])
    (pair : ∀ rest, motive rest → motive ('\r' :: '\n' :: rest))
    (ends : ∀ c rest, endsLine c = true → ¬ JoinsNext c rest → motive rest → motive (c :: rest))
    (goes : ∀ c rest, endsLine c = false → motive rest → motive (c :: rest))
    (cs : List Char) : motive cs := by
  induction hlength : cs.length using Nat.strongRecOn generalizing cs with
  | ind n ih =>
    subst hlength
    cases cs with
    | nil => exact nil
    | cons c rest =>
      have hrest : motive rest := ih rest.length (Nat.lt_succ_self _) rest rfl
      by_cases h : JoinsNext c rest
      · obtain ⟨rfl, hhead⟩ := h
        obtain ⟨more, rfl⟩ := List.head?_eq_some_iff.mp hhead
        have hlt : more.length < ('\r' :: '\n' :: more).length :=
          Nat.lt_succ_of_lt (Nat.lt_succ_self _)
        exact pair more (ih more.length hlt more rfl)
      cases hc : endsLine c with
      | true => exact ends c rest hc h hrest
      | false => exact goes c rest hc hrest

theorem not_joinsNext_of_not {c : Char} (hc : endsLine c = false) (rest : List Char) :
    ¬ JoinsNext c rest := by
  rintro ⟨rfl, -⟩
  cases hc

theorem linesFrom_cons {c : Char} {rest : List Char} (h : ¬ JoinsNext c rest) (line : List Char) :
    linesFrom line (c :: rest) =
      if endsLine c then (c :: line).reverse :: linesFrom [] rest
      else linesFrom (c :: line) rest := by
  rw [linesFrom]
  rintro more rfl rfl
  exact h ⟨rfl, rfl⟩

theorem linesFrom_eq (line cs : List Char) :
    linesFrom line cs = resume line.reverse (lines cs) := by
  unfold lines
  induction cs using lines_induction generalizing line with
  | nil => cases line <;> simp [linesFrom, resume]
  | pair rest _ => simp [linesFrom, resume]
  | ends c rest hc h _ =>
    rw [linesFrom_cons h, linesFrom_cons h, if_pos hc, if_pos hc, List.reverse_cons]
    rfl
  | goes c rest hc ih =>
    have h := not_joinsNext_of_not hc rest
    rw [linesFrom_cons h, linesFrom_cons h, hc, if_neg (by decide), if_neg (by decide),
      ih (c :: line), ih [c], List.reverse_cons, resume_append]
    rfl

theorem lines_cons_of_ends {c : Char} {rest : List Char} (h : ¬ JoinsNext c rest)
    (hc : endsLine c = true) : lines (c :: rest) = [c] :: lines rest := by
  rw [lines, linesFrom_cons h, if_pos hc]
  rfl

theorem lines_cons_of_not {c : Char} (rest : List Char) (hc : endsLine c = false) :
    lines (c :: rest) = resume [c] (lines rest) := by
  rw [lines, linesFrom_cons (not_joinsNext_of_not hc rest), hc, if_neg (by decide), linesFrom_eq]
  rfl

theorem lines_append_of_not {as : List Char} (h : ∀ c ∈ as, endsLine c = false) (rest : List Char) :
    lines (as ++ rest) = resume as (lines rest) := by
  induction as with
  | nil => rw [List.nil_append, resume_nil]
  | cons c as ih =>
    obtain ⟨hc, has⟩ := List.forall_mem_cons.mp h
    rw [List.cons_append, lines_cons_of_not _ hc, ih has, ← resume_append]
    rfl

theorem flatten_resume (start : List Char) (ls : List (List Char)) :
    (resume start ls).flatten = start ++ ls.flatten := by
  cases ls with
  | nil => cases start <;> simp [resume]
  | cons line rest => simp [resume]

theorem lines_pair (rest : List Char) :
    lines ('\r' :: '\n' :: rest) = ['\r', '\n'] :: lines rest := by
  simp [lines, linesFrom]

theorem flatten_lines (cs : List Char) : (lines cs).flatten = cs := by
  induction cs using lines_induction with
  | nil => rfl
  | pair rest ih => rw [lines_pair, List.flatten_cons, ih]; rfl
  | ends c rest hc h ih => rw [lines_cons_of_ends h hc, List.flatten_cons, ih]; rfl
  | goes c rest hc ih => rw [lines_cons_of_not rest hc, flatten_resume, ih]; rfl

theorem ne_nil_of_mem_resume {start : List Char} (hs : start ≠ []) {ls : List (List Char)}
    (h : ∀ line ∈ ls, line ≠ []) : ∀ line ∈ resume start ls, line ≠ [] := by
  cases ls with
  | nil => cases start <;> simp [resume]
  | cons line rest =>
    refine List.forall_mem_cons.mpr ⟨by simp [hs], (List.forall_mem_cons.mp h).2⟩

theorem ne_nil_of_mem_lines {cs : List Char} : ∀ line ∈ lines cs, line ≠ [] := by
  induction cs using lines_induction with
  | nil => exact List.forall_mem_nil _
  | pair rest ih =>
    rw [lines_pair]
    exact List.forall_mem_cons.mpr ⟨by simp, ih⟩
  | ends c rest hc h ih =>
    rw [lines_cons_of_ends h hc]
    exact List.forall_mem_cons.mpr ⟨by simp, ih⟩
  | goes c rest hc ih =>
    rw [lines_cons_of_not rest hc]
    exact ne_nil_of_mem_resume (by simp) ih

theorem resume_append_right (start : List Char) {ls : List (List Char)} (h : ls ≠ [])
    (ms : List (List Char)) : resume start (ls ++ ms) = resume start ls ++ ms := by
  cases ls with
  | nil => exact absurd rfl h
  | cons line rest => rfl

theorem lines_ne_nil {cs : List Char} (h : cs ≠ []) : lines cs ≠ [] := by
  intro hnil
  have hflat := flatten_lines cs
  rw [hnil] at hflat
  exact h hflat.symm

/-- A line feed always ends a line. -/
theorem lines_append_feed (cs rest : List Char) :
    lines (cs ++ '\n' :: rest) = lines (cs ++ ['\n']) ++ lines rest := by
  have hfeed : ∀ more, lines ('\n' :: more) = ['\n'] :: lines more := fun more =>
    lines_cons_of_ends (fun h => by cases h.1) rfl
  induction cs using lines_induction with
  | nil =>
    rw [List.nil_append, List.nil_append, hfeed, hfeed]
    rfl
  | pair more ih =>
    simp only [List.cons_append, lines_pair, ih]
  | ends c more hc h ih =>
    cases more with
    | nil =>
      change lines (c :: '\n' :: rest) = lines [c, '\n'] ++ lines rest
      by_cases hr : c = '\r'
      · subst hr
        rw [lines_pair, lines_pair]
        rfl
      · have h' : ∀ tail, ¬ JoinsNext c ('\n' :: tail) := fun tail hj => hr hj.1
        rw [lines_cons_of_ends (h' rest) hc, lines_cons_of_ends (h' []) hc, hfeed, hfeed]
        rfl
    | cons d more =>
      have h' : ∀ tail, ¬ JoinsNext c (d :: more ++ tail) := fun tail hj => h ⟨hj.1, hj.2⟩
      change lines (c :: (d :: more ++ '\n' :: rest)) =
        lines (c :: (d :: more ++ ['\n'])) ++ lines rest
      rw [lines_cons_of_ends (h' _) hc, lines_cons_of_ends (h' _) hc, ih]
      rfl
  | goes c more hc ih =>
    rw [List.cons_append, List.cons_append, lines_cons_of_not _ hc, lines_cons_of_not _ hc, ih,
      resume_append_right _ (lines_ne_nil (by simp))]

/-- The last line of a text. -/
theorem lines_append_end {c : Char} (hc : endsLine c = false) (cs : List Char) :
    ∃ front line, lines (cs ++ [c, '\n']) = front ++ [line ++ [c, '\n']] := by
  have hend : lines [c, '\n'] = [[c, '\n']] := by
    rw [lines_cons_of_not ['\n'] hc]
    rfl
  induction cs using lines_induction with
  | nil => exact ⟨[], [], hend⟩
  | pair rest ih =>
    obtain ⟨front, line, h⟩ := ih
    exact ⟨['\r', '\n'] :: front, line, by simp only [List.cons_append, lines_pair, h]⟩
  | ends d rest hd hj ih =>
    obtain ⟨front, line, h⟩ := ih
    have hj' : ¬ JoinsNext d (rest ++ [c, '\n']) := by
      rintro ⟨hreturn, hhead⟩
      cases rest with
      | nil =>
        cases hhead
        cases hc
      | cons e rest => exact hj ⟨hreturn, hhead⟩
    refine ⟨[d] :: front, line, ?_⟩
    rw [List.cons_append, lines_cons_of_ends hj' hd, h, List.cons_append]
  | goes d rest hd ih =>
    obtain ⟨front, line, h⟩ := ih
    rw [List.cons_append, lines_cons_of_not _ hd, h]
    cases front with
    | nil => exact ⟨[], d :: line, rfl⟩
    | cons first front => exact ⟨(d :: first) :: front, line, rfl⟩

theorem feedLinesFrom_append {as : List Char} (h : ∀ c ∈ as, c ≠ '\n') (line rest : List Char) :
    feedLinesFrom line (as ++ '\n' :: rest) =
      (line.reverse ++ as ++ ['\n']) :: feedLinesFrom [] rest := by
  induction as generalizing line with
  | nil => simp [feedLinesFrom]
  | cons c as ih =>
    obtain ⟨hc, has⟩ := List.forall_mem_cons.mp h
    rw [List.cons_append, feedLinesFrom, if_neg hc, ih has]
    simp

theorem feedLines_append {as : List Char} (h : ∀ c ∈ as, c ≠ '\n') (rest : List Char) :
    feedLines (as ++ '\n' :: rest) = (as ++ ['\n']) :: feedLines rest :=
  feedLinesFrom_append h [] rest

/-- A line and the blank line after it. -/
theorem feedLines_append_feeds {as : List Char} (h : ∀ c ∈ as, c ≠ '\n') (rest : List Char) :
    feedLines (as ++ '\n' :: '\n' :: rest) = (as ++ ['\n']) :: ['\n'] :: feedLines rest := by
  have hnone : ∀ c ∈ [], c ≠ '\n' := List.forall_mem_nil _
  rw [feedLines_append h]
  exact congrArg _ (feedLines_append hnone rest)

theorem feedLinesFrom_of_ne {as : List Char} (h : ∀ c ∈ as, c ≠ '\n') (line : List Char) :
    feedLinesFrom line as = if (line.reverse ++ as).isEmpty then [] else [line.reverse ++ as] := by
  induction as generalizing line with
  | nil => simp [feedLinesFrom]
  | cons c as ih =>
    obtain ⟨hc, has⟩ := List.forall_mem_cons.mp h
    rw [feedLinesFrom, if_neg hc, ih has]
    simp

/-- A text without a line feed is one line, or none. -/
theorem feedLines_of_ne {as : List Char} (h : ∀ c ∈ as, c ≠ '\n') :
    feedLines as = if as.isEmpty then [] else [as] := feedLinesFrom_of_ne h []

end Text

namespace Command

open Text

/-- A character that may stand in the word of a prompt. -/
def isPromptChar (c : Char) : Bool := !(isBlank c || c == '>')

/-- No prompt begins the text. -/
def NoPrompt (cs : List Char) : Prop :=
  ∀ word rest, (∀ c ∈ word, isPromptChar c = true) → cs ≠ word ++ '>' :: ' ' :: rest

theorem dropPrompt_eq (cs : List Char) :
    dropPrompt cs = (match cs.dropWhile isPromptChar with
      | '>' :: ' ' :: rest => rest
      | _ => cs) := rfl

theorem dropPrompt_append {word : List Char} (h : ∀ c ∈ word, isPromptChar c = true)
    (rest : List Char) : dropPrompt (word ++ '>' :: ' ' :: rest) = rest := by
  have hdrop : (word ++ '>' :: ' ' :: rest).dropWhile isPromptChar = '>' :: ' ' :: rest := by
    rw [List.dropWhile_append_of_pos h]
    rfl
  simp only [dropPrompt_eq, hdrop]

theorem dropPrompt_cases (cs : List Char) :
    (∃ word rest, (∀ c ∈ word, isPromptChar c = true) ∧ cs = word ++ '>' :: ' ' :: rest ∧
      dropPrompt cs = rest) ∨ NoPrompt cs ∧ dropPrompt cs = cs := by
  by_cases h : ∃ word rest, (∀ c ∈ word, isPromptChar c = true) ∧ cs = word ++ '>' :: ' ' :: rest
  · obtain ⟨word, rest, hword, rfl⟩ := h
    exact .inl ⟨word, rest, hword, rfl, dropPrompt_append hword rest⟩
  · refine .inr ⟨fun word rest hword heq => h ⟨word, rest, hword, heq⟩, ?_⟩
    rw [dropPrompt_eq]
    split
    · next rest hdrop =>
      refine absurd ⟨cs.takeWhile isPromptChar, rest, fun c hc => ?_, ?_⟩ h
      · exact List.all_eq_true.mp List.all_takeWhile c hc
      · rw [← hdrop, List.takeWhile_append_dropWhile]
    · rfl

theorem dropPrompt_of_noPrompt {cs : List Char} (h : NoPrompt cs) : dropPrompt cs = cs := by
  rcases dropPrompt_cases cs with ⟨word, rest, hword, heq, -⟩ | ⟨-, hdrop⟩
  · exact absurd heq (h word rest hword)
  · exact hdrop

theorem dropPrompt_suffix (cs : List Char) : dropPrompt cs <:+ cs := by
  rcases dropPrompt_cases cs with ⟨word, rest, -, heq, hdrop⟩ | ⟨-, hdrop⟩
  · rw [hdrop]
    exact ⟨word ++ ['>', ' '], by rw [heq]; simp⟩
  · exact hdrop.symm ▸ List.suffix_refl cs

/-- A blank before the first mark rules a prompt out. -/
theorem noPrompt_of_blank {as : List Char} (h : ∀ c ∈ as, c ≠ '>') {b : Char}
    (hb : isBlank b = true) (more : List Char) : NoPrompt (as ++ b :: more) := by
  intro word rest hword heq
  induction as generalizing word with
  | nil =>
    cases word with
    | nil => cases heq; cases hb
    | cons c word =>
      cases heq
      have hc := hword b List.mem_cons_self
      simp [isPromptChar, hb] at hc
  | cons a as ih =>
    obtain ⟨ha, has⟩ := List.forall_mem_cons.mp h
    cases word with
    | nil => exact ha (List.cons.inj heq).1
    | cons c word =>
      exact ih has word (List.forall_mem_cons.mp hword).2 (List.cons.inj heq).2

theorem NoPrompt.of_append {as bs : List Char} (h : NoPrompt (as ++ bs)) : NoPrompt as := by
  intro word rest hword heq
  refine h word (rest ++ bs) hword ?_
  rw [heq]
  simp

theorem length_flatMap_dropPrompt_le (ls : List (List Char)) :
    (ls.flatMap dropPrompt).length ≤ ls.flatten.length := by
  induction ls with
  | nil => exact Nat.le_refl 0
  | cons line ls ih =>
    rw [List.flatMap_cons, List.flatten_cons, List.length_append, List.length_append]
    exact Nat.add_le_add (dropPrompt_suffix line).length_le ih

/-- Lines that make up the same text without their prompts have none. -/
theorem dropPrompt_eq_of_flatMap {ls : List (List Char)} (h : ls.flatMap dropPrompt = ls.flatten) :
    ∀ line ∈ ls, dropPrompt line = line := by
  induction ls with
  | nil => exact List.forall_mem_nil _
  | cons line ls ih =>
    rw [List.flatMap_cons, List.flatten_cons] at h
    have hlen : (dropPrompt line).length = line.length := by
      have htotal := congrArg List.length h
      have hline := (dropPrompt_suffix line).length_le
      have hrest := length_flatMap_dropPrompt_le ls
      rw [List.length_append, List.length_append] at htotal
      omega
    have heq := (dropPrompt_suffix line).eq_of_length hlen
    rw [heq] at h
    exact List.forall_mem_cons.mpr ⟨heq, ih (List.append_cancel_left h)⟩

/-- The end of a reply is no part of a prompt. -/
theorem allBlank_dropPrompt_end (cs : List Char) :
    allBlank (dropPrompt (cs ++ [')', '\n'])) = false := by
  have hnotBlank : ∀ ds, [')', '\n'] <:+ ds → allBlank ds = false := by
    rintro ds ⟨front, rfl⟩
    have hclose : isBlank ')' = false := by decide
    simp [allBlank, hclose]
  have hend : [')', '\n'] <:+ cs ++ [')', '\n'] := List.suffix_append cs _
  rcases dropPrompt_cases (cs ++ [')', '\n']) with ⟨word, rest, -, heq, hdrop⟩ | ⟨-, hdrop⟩ <;>
    rw [hdrop]
  · have hrest : ' ' :: rest <:+ cs ++ [')', '\n'] := ⟨word ++ ['>'], by rw [heq]; simp⟩
    rcases List.suffix_or_suffix_of_suffix hrest hend with h | h
    · have hspace : ' ' ∈ [')', '\n'] := h.subset List.mem_cons_self
      cases hspace with
      | tail _ hspace => cases hspace with | tail _ hspace => cases hspace
    · rcases List.suffix_cons_iff.mp h with h | h
      · cases (List.cons.inj h).1
      · exact hnotBlank rest h
  · exact hnotBlank _ hend

/-- The text that is left of lines whose prompts are dropped, when the first has begun before. -/
def pruneRest (cs : List Char) : List Char :=
  match lines cs with
  | [] => []
  | line :: rest => line ++ rest.flatMap dropPrompt

theorem pruneRest_append {as : List Char} (h : ∀ c ∈ as, endsLine c = false) (cs : List Char) :
    pruneRest (as ++ cs) = as ++ pruneRest cs := by
  rw [pruneRest, pruneRest, lines_append_of_not h]
  cases lines cs with
  | nil => cases as <;> simp [resume]
  | cons line rest => simp [resume]

theorem pruneRest_cons_of_ends {c : Char} {cs : List Char} (hc : endsLine c = true)
    (h : ¬ JoinsNext c cs) : pruneRest (c :: cs) = c :: (lines cs).flatMap dropPrompt := by
  rw [pruneRest, lines_cons_of_ends h hc]
  rfl

theorem endsLine_of_isPromptChar {c : Char} (h : isPromptChar c = true) : endsLine c = false := by
  simp only [isPromptChar, Bool.not_eq_true', Bool.or_eq_false_iff] at h
  exact endsLine_of_not_isBlank h.1

/-- The prompt of the first line is the prompt of the text. -/
theorem flatMap_dropPrompt_lines (cs : List Char) :
    (lines cs).flatMap dropPrompt = pruneRest (dropPrompt cs) := by
  rcases dropPrompt_cases cs with ⟨word, rest, hword, rfl, hdrop⟩ | ⟨hno, hdrop⟩
  · have hmark : ∀ c ∈ ['>', ' '], endsLine c = false := by decide
    have hends : ∀ c ∈ word ++ ['>', ' '], endsLine c = false := by
      intro c hc
      rcases List.mem_append.mp hc with hc | hc
      · exact endsLine_of_isPromptChar (hword c hc)
      · exact hmark c hc
    have hlines : lines (word ++ '>' :: ' ' :: rest) =
        resume (word ++ ['>', ' ']) (lines rest) := by
      rw [← lines_append_of_not hends]
      simp
    rw [hdrop, hlines, pruneRest]
    cases lines rest with
    | nil =>
      have hempty : dropPrompt (word ++ ['>', ' ']) = [] := dropPrompt_append hword []
      simp [resume, hempty]
    | cons line more =>
      have hline : dropPrompt (word ++ '>' :: ' ' :: line) = line := dropPrompt_append hword line
      simp [resume, hline]
  · rw [hdrop, pruneRest]
    have hflat := flatten_lines cs
    cases hl : lines cs with
    | nil => rfl
    | cons line more =>
      rw [hl, List.flatten_cons] at hflat
      rw [← hflat] at hno
      rw [List.flatMap_cons, dropPrompt_of_noPrompt hno.of_append]

end Command

namespace Transport

/-- The lines that nobody has read yet. -/
def lines : Transport → List (List Char)
  | loopback _ lines => lines
  | streams incoming _ _ => incoming

def withLines (lines : List (List Char)) : Transport → Transport
  | loopback server _ => loopback server lines
  | streams _ sent isOpen => streams lines sent isOpen

/-- A server in this process can always be read from. -/
def CanRead : Transport → Prop
  | loopback _ _ => True
  | streams _ _ isOpen => isOpen = true

theorem CanRead.withLines {t : Transport} (h : t.CanRead) (ls : List (List Char)) :
    (t.withLines ls).CanRead := by
  cases t <;> exact h

theorem lines_withLines (t : Transport) (ls : List (List Char)) : (t.withLines ls).lines = ls := by
  cases t <;> rfl

theorem withLines_withLines (t : Transport) (ls ms : List (List Char)) :
    (t.withLines ls).withLines ms = t.withLines ms := by
  cases t <;> rfl

end Transport

namespace Dialogue

open Command Text

theorem readLine_cons {t : Transport} (h : t.CanRead) {line : List Char}
    {rest : List (List Char)} (hl : t.lines = line :: rest) :
    readLine t = .ok line (t.withLines rest) := by
  have hget : (get : Dialogue Transport) t = .ok t t := rfl
  unfold readLine
  rw [bind_of_ok hget]
  cases t with
  | loopback server lines =>
    cases hl
    rfl
  | streams incoming sent isOpen =>
    cases hl
    cases h
    rfl

/-- A line that ends a reply, or comes before it. -/
def Separates (line : List Char) : Prop := line ≠ [] ∧ allBlank (dropPrompt line) = true

/-- A line that belongs to a reply. -/
def Carries (line : List Char) : Prop := line ≠ [] ∧ allBlank (dropPrompt line) = false

theorem carries_or_separates {line : List Char} (hne : line ≠ []) :
    Carries line ∨ Separates line := by
  cases h : allBlank (dropPrompt line) with
  | true => exact .inr ⟨hne, h⟩
  | false => exact .inl ⟨hne, h⟩

/-- The lines up to the first one that ends a reply. -/
theorem forall_carries_or {ls : List (List Char)} (h : ∀ line ∈ ls, line ≠ []) :
    (∀ line ∈ ls, Carries line) ∨ ∃ front line rest, ls = front ++ line :: rest ∧
      (∀ line ∈ front, Carries line) ∧ Separates line := by
  induction ls with
  | nil => exact .inl (List.forall_mem_nil _)
  | cons line ls ih =>
    obtain ⟨hline, hls⟩ := List.forall_mem_cons.mp h
    rcases carries_or_separates hline with hline | hline
    · rcases ih hls with hmore | ⟨front, stop, rest, rfl, hfront, hstop⟩
      · exact .inl (List.forall_mem_cons.mpr ⟨hline, hmore⟩)
      · exact .inr ⟨line :: front, stop, rest, rfl, List.forall_mem_cons.mpr ⟨hline, hfront⟩,
          hstop⟩
    · exact .inr ⟨[], line, ls, rfl, List.forall_mem_nil _, hline⟩

theorem collect_cons {t : Transport} (h : t.CanRead) {line : List Char} {rest : List (List Char)}
    (hl : t.lines = line :: rest) (hne : line ≠ []) (read : List (List Char)) (count : Nat) :
    collect read (count + 1) t =
      (if !allBlank (dropPrompt line) then collect (dropPrompt line :: read) count
      else if read.isEmpty then collect read count
      else return String.ofList (dropEnd (· == '\n') read.reverse.flatten))
        (t.withLines rest) := by
  have hempty : line.isEmpty = false := by simpa using hne
  rw [collect, bind_of_ok (readLine_cons h hl), hempty]
  rfl

/-- The lines of a reply up to the one that ends it. -/
theorem collect_reply {t : Transport} (h : t.CanRead) {ls rest : List (List Char)}
    {line : List Char} (hl : t.lines = ls ++ line :: rest) (hls : ∀ line ∈ ls, Carries line)
    (hline : Separates line) (read : List (List Char)) (hsome : read ≠ [] ∨ ls ≠ []) {count : Nat}
    (hc : ls.length < count) :
    collect read count t = .ok (String.ofList (dropEnd (· == '\n')
      (read.reverse ++ ls.map dropPrompt).flatten)) (t.withLines rest) := by
  induction ls generalizing t read count with
  | nil =>
    obtain ⟨count, rfl⟩ := Nat.exists_eq_succ_of_ne_zero (Nat.ne_of_gt hc)
    have hread : read.isEmpty = false := by simpa using hsome
    rw [collect_cons h hl hline.1, hline.2, hread, List.map_nil, List.append_nil]
    rfl
  | cons first ls ih =>
    obtain ⟨count, rfl⟩ := Nat.exists_eq_succ_of_ne_zero (Nat.ne_of_gt (Nat.zero_lt_of_lt hc))
    obtain ⟨hfirst, hmore⟩ := List.forall_mem_cons.mp hls
    rw [collect_cons h hl hfirst.1, hfirst.2]
    have hcollect := ih (h.withLines (ls ++ line :: rest)) (Transport.lines_withLines t _) hmore
      (dropPrompt first :: read) (.inl (List.cons_ne_nil _ _)) (Nat.lt_of_succ_lt_succ hc)
    rw [Transport.withLines_withLines] at hcollect
    have hread : (dropPrompt first :: read).reverse ++ ls.map dropPrompt =
        read.reverse ++ (first :: ls).map dropPrompt := by simp
    rw [hread] at hcollect
    exact hcollect

/-- Lines in front of a reply are passed over. -/
theorem collect_append {t : Transport} (h : t.CanRead) {front rest : List (List Char)}
    (hl : t.lines = front ++ rest) (hf : ∀ line ∈ front, Separates line) (count : Nat) :
    collect [] (front.length + count) t = collect [] count (t.withLines rest) := by
  induction front generalizing t with
  | nil =>
    have ht : t.withLines rest = t := by
      rw [← show t.lines = rest from hl]
      cases t <;> rfl
    rw [ht, List.length_nil, Nat.zero_add]
  | cons line front ih =>
    obtain ⟨hline, hmore⟩ := List.forall_mem_cons.mp hf
    have hcount : (line :: front).length + count = front.length + count + 1 := by
      rw [List.length_cons]
      omega
    rw [hcount, collect_cons h hl hline.1, hline.2]
    have hcollect := ih (h.withLines (front ++ rest)) (Transport.lines_withLines t _) hmore
    rw [Transport.withLines_withLines] at hcollect
    exact hcollect

theorem lineCount_eq (t : Transport) : lineCount t = t.lines.length := by cases t <;> rfl

/-- A reply among the lines that nobody has read yet. -/
theorem readReply_ok {t : Transport} (h : t.CanRead) {front ls rest : List (List Char)}
    {line : List Char} (hl : t.lines = front ++ (ls ++ line :: rest))
    (hf : ∀ line ∈ front, Separates line) (hne : ls ≠ []) (hls : ∀ line ∈ ls, Carries line)
    (hline : Separates line) :
    readReply t = .ok (String.ofList (dropEnd (· == '\n') (ls.flatMap dropPrompt)))
      (t.withLines rest) := by
  have hget : (get : Dialogue Transport) t = .ok t t := rfl
  have hcount : lineCount t + 1 = front.length + (ls.length + rest.length + 2) := by
    rw [lineCount_eq, hl]
    simp only [List.length_append, List.length_cons]
    omega
  rw [readReply, bind_of_ok hget, hcount, collect_append h hl hf]
  have hcollect := collect_reply (h.withLines (ls ++ line :: rest)) (Transport.lines_withLines t _)
    hls hline [] (.inr hne) (show ls.length < ls.length + rest.length + 2 by omega)
  rw [Transport.withLines_withLines] at hcollect
  rw [hcollect, List.flatMap_def]
  rfl

end Dialogue

end LiveScheme
