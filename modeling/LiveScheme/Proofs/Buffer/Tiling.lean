import LiveScheme.Proofs.Buffer.Pieces
import LiveScheme.Proofs.Buffer.Spans
import Mathlib.Data.List.Pairwise

/-!
# What lies between tokens

Every character of a buffer belongs to one piece, and a piece that is no token is left out for one
of four reasons: it is blank, it is a comment to the end of its line, it is a block comment up to
the first closing mark, or it begins like a block comment that never closes and goes on as far as
the word characters go. Such a run need not be the whole run of word characters around it: a
character, an unquote with its at sign and a block comment may end in front of it with a word
character.
-/

namespace LiveScheme

open Text Token

namespace Scanner

section Stretches

/-- A semicolon and what follows it on its line. -/
structure IsLineComment (here back : List Char) : Prop where
  opens : here.head? = some ';'
  inLine : '\n' ∉ here
  ends : ∀ c ∈ back.head?, c = '\n'

/-- A block comment from its opening mark to the first closing mark behind it. -/
def IsBlockComment (here : List Char) : Prop :=
  ∃ body, here = ['#', '|'] ++ body ++ ['|', '#'] ∧ ¬['|', '#'] <:+: body ++ ['|']

/-- Word characters, as far as they go, from an opening mark without a closing mark behind it. -/
structure IsUnclosed (here back : List Char) : Prop where
  opens : ['#', '|'] <+: here
  word : ∀ c ∈ here, isWordChar c = true
  unclosed : ¬['|', '#'] <:+: (here ++ back).drop 2
  ends : ∀ c ∈ back.head?, isWordChar c = false

/-- The ways in which a piece is cut off in front of the rest of a text. -/
inductive Cut : List Char → List Char → Prop
  | blanks {here back : List Char} : (∀ c ∈ here, isBlank c = true) → Cut here back
  | lineComment {here back : List Char} : IsLineComment here back → Cut here back
  | blockComment {here back : List Char} : IsBlockComment here → Cut here back
  | unclosed {here back : List Char} : IsUnclosed here back → Cut here back
  | mark {c : Char} {here back : List Char} : here.getLast? = some c → isWordChar c = false →
    isSkipped here = false → Cut here back
  | unquoteAt (back : List Char) : Cut [',', '@'] back
  | char (c : Char) (name back : List Char) : Cut ('#' :: '\\' :: c :: name) back
  | openText {body back : List Char} : back = [] ∨ back = ['\\'] → Cut ('\x22' :: body) back
  | word {here back : List Char} : isSkipped here = false →
    (∀ c ∈ back.head?, isWordChar c = false) → Cut here back

end Stretches

section Lengths

/-- A block comment ends at the first closing mark, if there is one. -/
theorem blockLength_cases (cs : List Char) :
    blockLength cs = none ∧ ¬['|', '#'] <:+: cs ∨
      ∃ body rest, cs = body ++ ['|', '#'] ++ rest ∧ blockLength cs = some (body.length + 4) ∧
        ¬['|', '#'] <:+: body ++ ['|'] := by
  fun_induction blockLength cs with
  | case1 => exact .inl ⟨rfl, by simp⟩
  | case2 rest => exact .inr ⟨[], rest, rfl, rfl, by decide⟩
  | case3 c rest hne ih =>
    -- no closing mark begins at `c`; what follows it is looked at only as far as one character
    have hfirst : ∀ cs, ['|', '#'] <+: c :: cs → cs.head? = rest.head? → False := by
      rintro cs ⟨more, hmore⟩ hhead
      obtain ⟨rfl, rfl⟩ := List.cons.inj hmore
      obtain ⟨left, rfl⟩ := List.head?_eq_some_iff.mp hhead.symm
      exact hne left rfl rfl
    obtain ⟨hnone, hclose⟩ | ⟨body, left, rfl, hlength, hclose⟩ := ih
    · refine .inl ⟨by rw [hnone]; rfl, ?_⟩
      rw [List.infix_cons_iff]
      rintro (hhere | hlater)
      · exact hfirst rest hhere rfl
      · exact hclose hlater
    · refine .inr ⟨c :: body, left, rfl, by rw [hlength]; rfl, ?_⟩
      rw [List.cons_append, List.infix_cons_iff]
      rintro (hhere | hlater)
      · refine hfirst _ hhere ?_
        cases body <;> rfl
      · exact hclose hlater

/-- A string ends with a quote, unless it reaches to the end of the text or to a backslash there. -/
theorem textLength_cases (cs : List Char) :
    (cs.take (textLength cs)).getLast? = some '\x22' ∨ cs.drop (textLength cs) = [] ∨
      cs.drop (textLength cs) = ['\\'] := by
  fun_induction textLength cs with
  | case1 => exact .inr (.inl rfl)
  | case2 => exact .inr (.inr rfl)
  | case3 c more ih =>
    obtain hclosed | hopen := ih
    · exact .inl (by simp [List.getLast?_cons, hclosed])
    · exact .inr hopen
  | case4 => exact .inl rfl
  | case5 c rest _ _ ih =>
    obtain hclosed | hopen := ih
    · exact .inl (by simp [List.getLast?_cons, hclosed])
    · exact .inr hopen

theorem cut_wordLength {c : Char} {rest : List Char} (hblank : isBlank c = false) (hsemi : c ≠ ';')
    (hbar : c = '#' → rest.head? ≠ some '|') :
    Cut (c :: rest.take (wordLength rest)) (rest.drop (wordLength rest)) := by
  rw [wordLength, take_length_takeWhile, drop_length_takeWhile]
  refine .word (not_isSkipped hblank hsemi fun hc hhead => hbar hc ?_) head_dropWhile
  rw [List.head?_takeWhile, Option.filter_eq_some_iff] at hhead
  exact hhead.1

/-- What begins with an opening mark is a block comment or an unclosed one. -/
theorem cut_block (more : List Char) :
    Cut ('#' :: ('|' :: more).take (hashLength ('|' :: more)))
      (('|' :: more).drop (hashLength ('|' :: more))) := by
  have hlength : hashLength ('|' :: more) =
      ((blockLength more).map (· - 1)).getD (wordLength ('|' :: more)) := rfl
  obtain ⟨hnone, hclose⟩ | ⟨body, left, rfl, hsome, hclose⟩ := blockLength_cases more
  · rw [hlength, hnone, Option.map_none, Option.getD_none]
    refine .unclosed ⟨?_, ?_, ?_, ?_⟩
    · rw [wordLength, take_length_takeWhile]
      exact ⟨more.takeWhile isWordChar, rfl⟩
    · rw [wordLength, take_length_takeWhile]
      exact List.forall_mem_cons.mpr ⟨by decide, List.all_eq_true.mp List.all_takeWhile⟩
    · rw [List.cons_append, List.take_append_drop]
      exact hclose
    · rw [wordLength, drop_length_takeWhile]
      exact head_dropWhile
  · rw [hlength, hsome, Option.map_some, Option.getD_some]
    refine .blockComment ⟨body, ?_, hclose⟩
    have hcut : '|' :: (body ++ ['|', '#'] ++ left) = ('|' :: body ++ ['|', '#']) ++ left := by simp
    have hcount : body.length + 4 - 1 = ('|' :: body ++ ['|', '#']).length := by simp
    rw [hcut, hcount, List.take_left]
    rfl

theorem cut_hash (rest : List Char) :
    Cut ('#' :: rest.take (hashLength rest)) (rest.drop (hashLength rest)) := by
  unfold hashLength
  split
  · next more => exact cut_block more
  · exact .mark (c := ';') rfl (by decide) rfl
  · exact .mark (c := '(') rfl (by decide) rfl
  · next c more =>
    split
    · rw [Nat.add_comm]
      exact .char c _ _
    · exact .char c [] more
  · next hbar _ _ _ =>
    refine cut_wordLength (by decide) (by decide) fun _ hhead => ?_
    obtain ⟨more, hmore⟩ := List.head?_eq_some_iff.mp hhead
    exact hbar more hmore

/-- Every piece is cut off in one of these ways. -/
theorem cut_moreLength (c : Char) (rest : List Char) :
    Cut (c :: rest.take (moreLength c rest)) (rest.drop (moreLength c rest)) := by
  unfold moreLength
  split
  · next hblank =>
    rw [take_length_takeWhile]
    exact .blanks (List.forall_mem_cons.mpr ⟨hblank, List.all_eq_true.mp List.all_takeWhile⟩)
  next hblank =>
  rw [Bool.not_eq_true] at hblank
  split
  · next hsemi =>
    subst hsemi
    rw [take_length_takeWhile, drop_length_takeWhile]
    refine .lineComment ⟨rfl, ?_, fun c hc => by simpa using head_dropWhile c hc⟩
    rw [List.mem_cons]
    rintro (h | h)
    · cases h
    · exact absurd (List.mem_takeWhile_imp h) (by decide)
  next hsemi =>
  split
  · next hhash =>
    subst hhash
    exact cut_hash rest
  next hhash =>
  split
  · next hmark =>
    simp only [Bool.or_eq_true, decide_eq_true_eq] at hmark
    have hsingle : isWordChar c = false ∧ isSkipped [c] = false := by
      rcases hmark with ((((rfl | rfl) | rfl) | rfl) | rfl) | rfl <;> decide
    exact .mark rfl hsingle.1 hsingle.2
  split
  · next hcomma =>
    subst hcomma
    split
    · next hat =>
      obtain ⟨more, rfl⟩ := List.head?_eq_some_iff.mp hat
      exact .unquoteAt more
    · exact .mark (c := ',') rfl (by decide) rfl
  split
  · next hquote =>
    subst hquote
    obtain hclosed | hopen := textLength_cases rest
    · refine .mark (c := '\x22') ?_ (by decide) rfl
      rw [List.getLast?_cons, hclosed]
      rfl
    · exact .openText hopen
  · exact cut_wordLength hblank hsemi fun h => absurd h hhash

end Lengths

section Neighbours

variable {text : List Char} {t : Span}

/-- A piece with the text in front of it and the rest that it is cut off from. -/
theorem exists_cut (h : t ∈ piecesFrom 0 text) : ∃ front back, text = front ++ t.text ++ back ∧
    t.start = front.length ∧ t.stop = front.length + t.text.length ∧ Cut t.text back := by
  obtain ⟨before, after, hpieces⟩ := List.append_of_mem h
  obtain ⟨front, back, htext, hstart, hback⟩ := piecesFrom_of_append hpieces
  rw [Nat.zero_add] at hstart
  cases back with
  | nil => simp [piecesFrom] at hback
  | cons c rest =>
    rw [piecesFrom, hstart] at hback
    have ht := (List.cons.inj hback).1
    subst ht
    refine ⟨front, rest.drop (moreLength c rest), ?_, rfl, rfl, cut_moreLength c rest⟩
    rw [htext, List.append_assoc, List.cons_append, List.take_append_drop]

/-- Each offset belongs to a piece. -/
theorem exists_piece {offset i : Nat} {cs : List Char} (hlow : offset ≤ i)
    (hhigh : i < offset + cs.length) : ∃ t ∈ piecesFrom offset cs, t.start ≤ i ∧ i < t.stop := by
  fun_induction piecesFrom offset cs with
  | case1 => exact absurd hhigh (by simpa using hlow)
  | case2 offset c rest n here ih =>
    by_cases hi : i < offset + here.length
    · exact ⟨_, List.mem_cons_self, hlow, hi⟩
    · have hlength : here.length + (rest.drop n).length = (c :: rest).length := by
        simp [here]
        omega
      obtain ⟨t, ht, hin⟩ := ih (by omega) (by omega)
      exact ⟨t, List.mem_cons_of_mem _ ht, hin⟩

/-- A piece begins at the start of the text or where another one ends. -/
theorem exists_previous {offset : Nat} {cs : List Char} (h : t ∈ piecesFrom offset cs) :
    t.start = offset ∨ ∃ s ∈ piecesFrom offset cs, s.stop = t.start := by
  fun_induction piecesFrom offset cs with
  | case1 => cases h
  | case2 offset c rest n here ih =>
    obtain rfl | h := List.mem_cons.mp h
    · exact .inl rfl
    · obtain hstart | ⟨s, hs, hstop⟩ := ih h
      · exact .inr ⟨_, List.mem_cons_self, hstart.symm⟩
      · exact .inr ⟨s, List.mem_cons_of_mem _ hs, hstop⟩

/-- Two pieces do not overlap. -/
theorem apart_of_ne {s : Span} (hs : s ∈ piecesFrom 0 text) (ht : t ∈ piecesFrom 0 text)
    (hne : s ≠ t) : s.stop ≤ t.start ∨ t.stop ≤ s.start := by
  have hsymm : Std.Symm fun s t : Span => s.stop ≤ t.start ∨ t.stop ≤ s.start :=
    ⟨fun _ _ => Or.symm⟩
  have hpairs : (piecesFrom 0 text).Pairwise fun s t => s.stop ≤ t.start ∨ t.stop ≤ s.start :=
    (pairwise_piecesFrom 0 text).imp .inl
  exact hpairs.forall hs ht hne

end Neighbours

section LeftOut

variable {text : List Char} {t : Span}

/-- No word character stands at the end of the text. -/
def EndsClear (front : List Char) : Prop := ∀ c ∈ front.getLast?, isWordChar c = false

/-- The text ends with a character, an unquote with its at sign or a block comment: these may end
with a word character and have others behind them. -/
def EndsShort (ts : List Span) (front : List Char) : Prop :=
  (∃ s ∈ ts, s.stop = front.length ∧
    (s.text = [',', '@'] ∨ ∃ c name, s.text = '#' :: '\\' :: c :: name)) ∨
  ∃ before comment, front = before ++ comment ∧ IsBlockComment comment

/-- The reasons for which a stretch of a text is no token. An unclosed comment depends on what may
stand in front of it. -/
inductive IsLeftOut (lead : List Char → Prop) : List Char → List Char → List Char → Prop
  | blanks {front here back : List Char} : (∀ c ∈ here, isBlank c = true) →
    IsLeftOut lead front here back
  | lineComment {front here back : List Char} : IsLineComment here back →
    IsLeftOut lead front here back
  | blockComment {front here back : List Char} : IsBlockComment here →
    IsLeftOut lead front here back
  | unclosed {front here back : List Char} : IsUnclosed here back → lead front →
    IsLeftOut lead front here back

/-- The offset lies in the stretch `here` of the text. -/
structure Covers (text front here back : List Char) (i : Nat) : Prop where
  split : text = front ++ here ++ back
  low : front.length ≤ i
  high : i < front.length + here.length

/-- What stands in front of an opening mark that begins a piece. -/
theorem ends_of_opens {front back : List Char} (h : t ∈ piecesFrom 0 text)
    (htext : text = front ++ back) (hstart : t.start = front.length)
    (hopens : ['#', '|'] <+: back) :
    EndsClear front ∨ EndsShort (tokens text) front := by
  obtain ⟨more, hback⟩ := hopens
  obtain hzero | ⟨s, hs, hstop⟩ := exists_previous h
  · obtain rfl := List.length_eq_zero_iff.mp (hstart.symm.trans hzero)
    exact .inl fun c hc => by cases hc
  obtain ⟨front', back', hcut, -, hlength, hways⟩ := exists_cut hs
  have hne : s.text ≠ [] := (standsIn_of_mem_piecesFrom hs).nonempty
  obtain ⟨hfront, hrest⟩ := List.append_inj (hcut.symm.trans htext)
    (by rw [List.length_append, ← hlength, hstop, hstart])
  have hmem : isSkipped s.text = false → s ∈ tokens text := fun hskip =>
    List.mem_filter.mpr ⟨hs, by rw [hskip]; rfl⟩
  have hlast : front.getLast? = s.text.getLast? := by
    rw [← hfront, List.getLast?_append_of_ne_nil _ hne]
  have hhead : back'.head? = some '#' := by rw [hrest, ← hback]; rfl
  -- a piece that goes on as far as it can does not stop in front of the mark
  have hword : ¬∀ c ∈ back'.head?, isWordChar c = false := fun hends =>
    absurd (hends '#' hhead) (by decide)
  generalize hhere : s.text = here at *
  cases hways with
  | blanks hblank =>
    refine .inl fun c hc => ?_
    rw [hlast] at hc
    exact isWordChar_of_isBreak (isBreak_of_isBlank (hblank c (List.mem_of_mem_getLast? hc)))
  | lineComment hline => exact absurd (hline.ends '#' hhead) (by decide)
  | blockComment hblock => exact .inr (.inr ⟨front', here, hfront.symm, hblock⟩)
  | unclosed hopen => exact absurd hopen.ends hword
  | mark hend hclear _ =>
    refine .inl fun c hc => ?_
    rw [hlast, hend] at hc
    cases hc
    exact hclear
  | unquoteAt => exact .inr (.inl ⟨s, hmem rfl, hstop.trans hstart, .inl hhere⟩)
  | char c name => exact .inr (.inl ⟨s, hmem rfl, hstop.trans hstart, .inr ⟨c, name, hhere⟩⟩)
  | openText hopen =>
    obtain rfl | rfl := hopen
    · cases hhead
    · cases hhead
  | word _ hends => exact absurd hends hword

/-- A piece that is no token is left out for one of the reasons. -/
theorem isLeftOut_of_isSkipped (h : t ∈ piecesFrom 0 text) (hskip : isSkipped t.text = true) :
    ∃ front back, text = front ++ t.text ++ back ∧ t.start = front.length ∧
      t.stop = front.length + t.text.length ∧
      IsLeftOut (fun front => EndsClear front ∨ EndsShort (tokens text) front)
        front t.text back := by
  obtain ⟨front, back, htext, hstart, hstop, hways⟩ := exists_cut h
  refine ⟨front, back, htext, hstart, hstop, ?_⟩
  have hlead : ['#', '|'] <+: t.text → EndsClear front ∨ EndsShort (tokens text) front :=
    fun hopens => ends_of_opens h (htext.trans (List.append_assoc _ _ _)) hstart
      (hopens.trans (List.prefix_append _ _))
  generalize t.text = here at *
  cases hways with
  | blanks hblank => exact .blanks hblank
  | lineComment hline => exact .lineComment hline
  | blockComment hblock => exact .blockComment hblock
  | unclosed hopen => exact .unclosed hopen (hlead hopen.opens)
  | mark _ _ hkept => exact absurd (hkept.symm.trans hskip) nofun
  | unquoteAt => cases hskip
  | char => cases hskip
  | openText =>
    rw [not_isSkipped (by decide) (by decide) fun h => absurd h (by decide)] at hskip
    cases hskip
  | word hkept _ => exact absurd (hkept.symm.trans hskip) nofun

end LeftOut

/-- The tokens from one of them on are those whose offsets are not smaller. -/
theorem tokens_drop_eq_filter {text : List Char} {t : Span} (h : t ∈ tokens text) :
    (tokens (text.drop t.start)).map (Span.shift t.start) =
      (tokens text).filter (t.start ≤ ·.start) := by
  obtain ⟨before, after, hcut⟩ := List.append_of_mem h
  have hordered := pairwise_start_tokens text
  rw [hcut, List.pairwise_append, List.pairwise_cons] at hordered
  obtain ⟨-, ⟨hafter, -⟩, hbefore⟩ := hordered
  have hnone : before.filter (t.start ≤ ·.start) = [] := by
    refine List.filter_eq_nil_iff.mpr fun s hs => ?_
    simpa using hbefore s hs t List.mem_cons_self
  have hall : (t :: after).filter (t.start ≤ ·.start) = t :: after := by
    refine List.filter_eq_self.mpr (List.forall_mem_cons.mpr ⟨by simp, fun s hs => ?_⟩)
    simpa using Nat.le_of_lt (hafter s hs)
  rw [tokens_drop hcut, hcut, List.filter_append, hnone, hall, List.nil_append]

/-- Tokens follow one another with the text that stands at their offsets. An offset that belongs to
none lies in a stretch between them that is blank, a comment, or word characters from an opening
mark that is never closed up to the next other character; in front of the latter a word character
ends a character, an unquote or a block comment. From each token on, the rest of the text has the
same tokens by itself. -/
theorem tokens_tile (text : List Char) :
    (∀ t ∈ tokens text,
      t.start < t.stop ∧ t.stop ≤ text.length ∧ text.extract t.start t.stop = t.text) ∧
    (tokens text).Pairwise (fun s t => s.stop ≤ t.start) ∧
    (∀ i < text.length, (∀ t ∈ tokens text, i < t.start ∨ t.stop ≤ i) →
      ∃ front here back, Covers text front here back i ∧
        (∀ t ∈ tokens text, t.stop ≤ front.length ∨ front.length + here.length ≤ t.start) ∧
        IsLeftOut (fun front => EndsClear front ∨ EndsShort (tokens text) front) front here back) ∧
    ∀ t ∈ tokens text, (tokens (text.drop t.start)).map (Span.shift t.start) =
      (tokens text).filter (t.start ≤ ·.start) := by
  refine ⟨fun t ht => ?_, pairwise_tokens text, fun i hi houtside => ?_,
    fun t => tokens_drop_eq_filter⟩
  · have hstands := standsIn_of_mem ht
    refine ⟨hstands.start_lt, hstands.stop_le, ?_⟩
    rw [List.extract_eq_take_drop, hstands.stop, Nat.add_sub_cancel_left]
    exact (List.prefix_iff_eq_take.mp hstands.begins).symm
  · obtain ⟨p, hp, hlow, hhigh⟩ : ∃ p ∈ piecesFrom 0 text, p.start ≤ i ∧ i < p.stop :=
      exists_piece (Nat.zero_le i) (by rwa [Nat.zero_add])
    have hskip : isSkipped p.text = true := by
      by_contra hkept
      have hnot := houtside p (List.mem_filter.mpr ⟨hp, by simpa using hkept⟩)
      omega
    obtain ⟨front, back, hsplit, hstart, hstop, hreason⟩ := isLeftOut_of_isSkipped hp hskip
    refine ⟨front, p.text, back, ⟨hsplit, by omega, by omega⟩, fun t ht => ?_, hreason⟩
    obtain ⟨htp, hkept⟩ := List.mem_filter.mp ht
    have hne : p ≠ t := by
      rintro rfl
      rw [hskip] at hkept
      cases hkept
    have happart := apart_of_ne hp htp hne
    omega

/-- A closed comment and one that never closes right behind it: `(a #|b|##|c`. -/
def halfClosed : List Char := ['(', 'a', ' ', '#', '|', 'b', '|', '#', '#', '|', 'c']

theorem tokens_tile_halfClosed :
    (∀ t ∈ tokens halfClosed, 9 < t.start ∨ t.stop ≤ 9) ∧ halfClosed.extract 1 2 = ['a'] ∧
    (∃ front here back, Covers halfClosed front here back 9 ∧
      IsLeftOut (fun front => EndsClear front ∨ EndsShort (tokens halfClosed) front)
        front here back) ∧
    (tokens (halfClosed.drop 1)).map (Span.shift 1) = [⟨['a'], 1, 2⟩] := by
  have htokens : tokens halfClosed = [⟨['('], 0, 1⟩, ⟨['a'], 1, 2⟩] := by decide +kernel
  have houtside : ∀ t ∈ tokens halfClosed, 9 < t.start ∨ t.stop ≤ 9 := by
    rw [htokens]
    decide
  obtain ⟨hstands, -, hleft, hrest⟩ := tokens_tile halfClosed
  have ha : (⟨['a'], 1, 2⟩ : Span) ∈ tokens halfClosed := by
    rw [htokens]
    decide
  obtain ⟨front, here, back, hcovers, -, hreason⟩ := hleft 9 (by decide) houtside
  refine ⟨houtside, (hstands _ ha).2.2, ⟨front, here, back, hcovers, hreason⟩, ?_⟩
  rw [hrest _ ha, htokens]
  rfl

/-- An opening mark that never closes, right behind a character: `#\a#|b`. -/
def joinedMark : List Char := ['#', '\\', 'a', '#', '|', 'b']

/-- What is left out from an opening mark on need not be the whole run of word characters. -/
theorem not_isLeftOut_endsClear :
    3 < joinedMark.length ∧ (∀ t ∈ tokens joinedMark, 3 < t.start ∨ t.stop ≤ 3) ∧
      ¬∃ front here back, Covers joinedMark front here back 3 ∧
        IsLeftOut EndsClear front here back := by
  have htokens : tokens joinedMark = [⟨['#', '\\', 'a'], 0, 3⟩] := by decide +kernel
  have hchars : ∀ c ∈ joinedMark, isWordChar c = true := by decide
  refine ⟨by decide, ?_, ?_⟩
  · rw [htokens]
    decide
  rintro ⟨front, here, back, ⟨hsplit, hlow, hhigh⟩, hreason⟩
  have hpart : here <:+: joinedMark := ⟨front, back, hsplit.symm⟩
  cases hreason with
  | blanks hblank =>
    obtain ⟨c, rest, rfl⟩ := List.exists_cons_of_length_pos (l := here) (by omega)
    have hc : isBlank c = false :=
      isBlank_of_isWordChar (hchars c (hpart.subset List.mem_cons_self))
    rw [hblank c List.mem_cons_self] at hc
    cases hc
  | lineComment hline =>
    have hsemi : ';' ∈ joinedMark := hpart.subset (List.mem_of_mem_head? hline.opens)
    exact absurd (hchars _ hsemi) (by decide)
  | blockComment hblock =>
    obtain ⟨body, rfl, -⟩ := hblock
    have hclose : ['|', '#'] <:+: joinedMark :=
      (List.suffix_append _ _).isInfix.trans hpart
    exact absurd hclose (by decide)
  | unclosed hopen hlead =>
    cases hlast : front.getLast? with
    | none =>
      obtain rfl := List.getLast?_eq_none_iff.mp hlast
      have hprefix : ['#', '|'] <+: joinedMark := by
        rw [hsplit, List.nil_append]
        exact hopen.opens.trans (List.prefix_append _ _)
      exact absurd hprefix (by decide)
    | some c =>
      have hmem : c ∈ joinedMark := by
        rw [hsplit]
        simp [List.mem_of_mem_getLast? hlast]
      have hc := hlead c hlast
      rw [hchars c hmem] at hc
      cases hc

end Scanner

end LiveScheme
