import LiveScheme.Editor.Command
import LiveScheme.Proofs.Reading.ReadBack

/-!
# Requests to evaluate

A request to evaluate a form is a call of the evaluation service on a quoted module name and the
quoted form. When both texts read back as they were written, the request reads as that call,
whatever blanks follow it. The one form that spoils its request is the name that begins like a
character: it takes the closing bracket with it, and the server would wait for another one. As a
module name it takes the blank after it and is read as that character.
-/

namespace LiveScheme

open Text

theorem Datum.readable_sum (m n : Int) : (Datum.list [.sym "+", .int m, .int n]).Readable := by
  have hplus : ReadableName "+" := by decide
  refine .list _ (List.forall_mem_cons.mpr ⟨.sym _ hplus, ?_⟩)
  exact List.forall_mem_cons.mpr ⟨.int m trivial, List.forall_mem_singleton.mpr (.int n trivial)⟩

def Datum.quoted (d : Datum) : Datum := .list [.sym "quote", d]

namespace Printer

variable {p : Char → Prop}

/-- What holds of the letters of escapes, and of the characters that stand for themselves, holds of
an escaped text. -/
theorem forall_escape (hletters : ∀ e ∈ ['\\', '\x22', 'n', 't', 'r'], p e) {cs : List Char}
    (h : ∀ c ∈ cs, escapeChar c = [c] → p c) : ∀ c ∈ escape cs, p c := by
  intro c hc
  obtain ⟨d, hd, hc⟩ := List.mem_flatMap.mp hc
  rcases escapeChar_cases d with ⟨e, he, hescape, -⟩ | ⟨hescape, -⟩
  · rw [hescape, List.mem_cons, List.mem_singleton] at hc
    rcases hc with rfl | rfl
    · exact hletters _ List.mem_cons_self
    · exact hletters _ he
  · rw [hescape, List.mem_singleton] at hc
    subst hc
    exact h c hd hescape

theorem forall_writeText (hletters : ∀ e ∈ ['\\', '\x22', 'n', 't', 'r'], p e) {cs : List Char}
    (h : ∀ c ∈ cs, escapeChar c = [c] → p c) : ∀ c ∈ writeText cs, p c := by
  have hquote : p '\x22' := hletters _ (by simp)
  intro c hc
  rcases List.mem_append.mp hc with hc | hc
  · rcases List.mem_cons.mp hc with rfl | hc
    · exact hquote
    · exact forall_escape hletters h c hc
  · cases List.mem_singleton.mp hc
    exact hquote

end Printer

/-- What holds of a blank, and of the text of every item, holds of the text of all. -/
theorem Node.forall_itemsChars {p : Char → Prop} (hspace : p ' ') {items : List Datum}
    (h : ∀ d ∈ items, ∀ c ∈ chars Empty.elim true d, p c) :
    ∀ c ∈ itemsChars Empty.elim true items, p c := by
  induction items with
  | nil => exact List.forall_mem_nil _
  | cons x rest ih =>
    obtain ⟨hx, hrest⟩ := List.forall_mem_cons.mp h
    intro c hc
    cases rest with
    | nil =>
      have hc : c ∈ chars Empty.elim true x ++ [] := hc
      rw [List.append_nil] at hc
      exact hx c hc
    | cons y rest =>
      rcases List.mem_append.mp hc with hc | hc
      · exact hx c hc
      rcases List.mem_cons.mp hc with rfl | hc
      · exact hspace
      · exact ih hrest c hc

namespace Token

def quote : Token := ⟨.quote, ['\x27']⟩

end Token

namespace Datum

namespace Reading

theorem delivers_quoted {ts : List Token} {d : Datum} (h : Delivers ts d) :
    Delivers (Token.quote :: ts) d.quoted := by
  intro done stack hs
  rw [run_cons_of_takes hs]
  change run ⟨done, .quoted "quote" :: stack⟩ ts = _
  rw [h done (.quoted "quote" :: stack) trivial]
  rfl

end Reading

/-- A character that goes into a line of a written datum as it is. -/
def IsInline (c : Char) : Prop := c ≠ '\n' ∧ c ≠ '\t' ∧ c ≠ '\r'

instance : DecidablePred IsInline := fun _ => inferInstanceAs (Decidable (_ ∧ _ ∧ _))

theorem isInline_of_isBlank {c : Char} (h : isBlank c = false) : IsInline c := by
  refine ⟨?_, ?_, ?_⟩ <;> rintro rfl <;> revert h <;> decide

theorem isInline_of_escapeChar {c : Char} (h : Printer.escapeChar c = [c]) : IsInline c := by
  refine ⟨?_, ?_, ?_⟩ <;> rintro rfl <;> revert h <;> decide

theorem isInline_writeText (cs : List Char) : ∀ c ∈ Printer.writeText cs, IsInline c :=
  Printer.forall_writeText (by decide) fun _ _ h => isInline_of_escapeChar h

theorem isInline_writeChar (c : Char) : ∀ d ∈ Printer.writeChar c, IsInline d := by
  intro d hd
  unfold Printer.writeChar at hd
  rcases List.mem_cons.mp hd with rfl | hd
  · decide
  rcases List.mem_cons.mp hd with rfl | hd
  · decide
  split at hd
  · next name hname =>
    have hletter := (Printer.char_of_charName? hname).2.1 d hd
    refine ⟨?_, ?_, ?_⟩ <;> rintro rfl <;> revert hletter <;> decide
  · next hnone =>
    cases List.mem_singleton.mp hd
    refine ⟨?_, ?_, ?_⟩ <;> rintro rfl <;> revert hnone <;> decide

/-- Line ends and tabs are escaped in strings and named as characters. -/
theorem isInline_chars {d : Datum} (h : d.Over IsLexical) :
    ∀ c ∈ Node.chars Empty.elim true d, IsInline c := by
  induction h with
  | bool b _ => cases b <;> exact (by decide)
  | int n _ =>
    exact fun c hc => isInline_of_isBlank
      (Token.isBlank_of_isWordChar ((Token.isWord_toString n).chars c hc))
  | real x hx => exact hx.elim
  | str text _ => exact isInline_writeText text.toList
  | char c _ => exact isInline_writeChar c
  | sym name hw =>
    exact fun c hc => isInline_of_isBlank (Token.isBlank_of_isWordChar (hw.chars c hc))
  | list items _ ih =>
    intro c hc
    simp only [Node.chars, List.cons_append, List.mem_cons, List.mem_append, List.not_mem_nil,
      or_false] at hc
    rcases hc with rfl | hc | rfl
    · decide
    · exact Node.forall_itemsChars (by decide) ih c hc
    · decide
  | vector items _ ih =>
    intro c hc
    simp only [Node.chars, List.cons_append, List.mem_cons, List.mem_append, List.not_mem_nil,
      or_false] at hc
    rcases hc with rfl | rfl | hc | rfl
    · decide
    · decide
    · exact Node.forall_itemsChars (by decide) ih c hc
    · decide
  | improper items tail _ _ _ _ ih iht =>
    intro c hc
    simp only [Node.chars, List.cons_append, List.append_assoc, List.nil_append, List.mem_cons,
      List.mem_append, List.not_mem_nil, or_false] at hc
    rcases hc with rfl | hc | rfl | rfl | rfl | hc | rfl
    · decide
    · exact Node.forall_itemsChars (by decide) ih c hc
    · decide
    · decide
    · decide
    · exact iht c hc
    · decide

end Datum

namespace Datum

namespace Reading

theorem runToFirst_cons (r : Reading) (t : Token) (ts : List Token) :
    r.runToFirst (t :: ts) =
      r.step t >>= fun r => if r.done.isEmpty then r.runToFirst ts else pure r := rfl

/-- A run that reads one datum reads it as the first one. -/
theorem runToFirst_of_run {ts : List Token} {r r' : Reading} {d : Datum} (hr : r.done = [])
    (hrun : r.run ts = .ok r') (hd : r'.done = [d]) :
    ∃ r'', r.runToFirst ts = .ok r'' ∧ r''.done = [d] := by
  induction ts generalizing r with
  | nil => exact ⟨r', hrun, hd⟩
  | cons t ts ih =>
    rw [run] at hrun
    rw [runToFirst_cons]
    cases hstep : r.step t with
    | error e => rw [hstep] at hrun; cases hrun
    | ok s =>
      rw [hstep] at hrun
      change s.run ts = .ok r' at hrun
      change ∃ r'', (if s.done.isEmpty = true then s.runToFirst ts else pure s) = .ok r'' ∧ _
      cases hs : s.done with
      | nil => exact ih hs hrun
      | cons x rest =>
        refine ⟨s, rfl, ?_⟩
        -- What is read later comes on top of what is read here.
        have honto : s = (⟨[], s.stack⟩ : Reading).onto s.done := rfl
        rw [honto, run_onto] at hrun
        cases hlater : (⟨[], s.stack⟩ : Reading).run ts with
        | error e => rw [hlater] at hrun; cases hrun
        | ok later =>
          rw [hlater] at hrun
          cases hrun
          have happend : later.done ++ s.done = [d] := hd
          rw [hs] at happend ⊢
          cases hdone : later.done with
          | nil => rwa [hdone] at happend
          | cons y more => rw [hdone] at happend; simp at happend

/-- Nothing behind the first datum is looked at. -/
theorem runToFirst_append {ts : List Token} {r r' : Reading} (hr : r.done = [])
    (h : r.runToFirst ts = .ok r') (hd : r'.done ≠ []) (more : List Token) :
    r.runToFirst (ts ++ more) = .ok r' := by
  induction ts generalizing r with
  | nil =>
    cases h
    exact absurd hr hd
  | cons t ts ih =>
    rw [List.cons_append, runToFirst_cons]
    rw [runToFirst_cons] at h
    cases hstep : r.step t with
    | error e => rw [hstep] at h; cases h
    | ok s =>
      rw [hstep] at h
      change (if s.done.isEmpty then s.runToFirst ts else pure s) = .ok r' at h
      change (if s.done.isEmpty then s.runToFirst (ts ++ more) else pure s) = .ok r'
      cases hs : s.done with
      | nil =>
        rw [hs] at h
        exact ih hs h
      | cons x rest =>
        rw [hs] at h
        exact h

end Reading

/-- The only datum of a text is its first one. -/
theorem readOne_of_readAll {source : String} {d : Datum} (h : readAll source = .ok [d]) :
    readOne source = .ok d := by
  obtain ⟨done, hrun, -, hforms⟩ := readAll_eq_ok h
  have hdone : done = [d] := by
    rw [← List.reverse_reverse done, hforms]
    rfl
  obtain ⟨r, hr, hrd⟩ := Reading.runToFirst_of_run rfl hrun hdone
  rw [readOne, hr]
  simp only [bind, Except.bind, hrd]
  rfl

/-- A readable datum is the first one of a text that goes on with a gap behind it. -/
theorem Readable.readOne {d : Datum} (h : d.Readable) {rest : List Char}
    (hr : Token.AtGap rest) :
    Datum.readOne (String.ofList (Node.chars Empty.elim true d ++ rest)) = .ok d := by
  have hyields := Lexed.yields_chars h.lexical (Node.chars Empty.elim true d ++ rest).length []
    rest (List.forall_mem_nil _) hr
  rw [List.nil_append] at hyields
  have hrun : Reading.start.run d.tokens = .ok ⟨[d], []⟩ := h.delivers [] [] trivial
  obtain ⟨r, hfirst, hd⟩ := Reading.runToFirst_of_run rfl hrun rfl
  have hne : r.done ≠ [] := by rw [hd]; exact List.cons_ne_nil d []
  rw [Datum.readOne, String.toList_ofList, Lexed.ofText, hyields, Lexed.prepend]
  simp only [Reading.runToFirst_append rfl hfirst hne, bind, Except.bind, hd]
  rfl

end Datum

namespace Lexed

/-- The tokens of a text, whatever follows it. -/
def Splits (cs : List Char) (ts : List Token) : Prop :=
  ∀ (total : Nat) (blanks rest : List Char), (∀ c ∈ blanks, isBlank c = true) →
    scanFrom total (blanks ++ (cs ++ rest)) = prepend ts (scanFrom total rest)

namespace Splits

theorem ofText {cs blanks : List Char} {ts : List Token} (h : Splits cs ts)
    (hb : ∀ c ∈ blanks, isBlank c = true) : Lexed.ofText (cs ++ blanks) = ⟨ts, none⟩ := by
  have hall := h (cs ++ blanks).length [] blanks (List.forall_mem_nil _)
  rw [List.nil_append, scanFrom_blank hb] at hall
  rw [Lexed.ofText, hall, prepend, List.append_nil]

/-- Texts with blanks between them. -/
theorem append {cs ds between : List Char} {ts us : List Token} (hc : Splits cs ts)
    (hb : ∀ c ∈ between, isBlank c = true) (hd : Splits ds us) :
    Splits (cs ++ (between ++ ds)) (ts ++ us) := by
  intro total blanks rest hblanks
  rw [prepend_append, ← hd total between rest hb, ← hc total blanks _ hblanks]
  simp

end Splits

end Lexed

namespace Command

/-- Whether a module name is sent as a quoted datum. -/
def isName : Datum → Bool
  | .sym _ | .list _ | .vector _ => true
  | _ => false

/-- The module name of a request as the server reads it. -/
def homeDatum : Option Datum → Datum
  | none => .bool false
  | some (.sym "#\\") => Datum.quoted (.char ' ')
  | some d => if isName d then d.quoted else Datum.str d.write

/-- The request to evaluate a form as the server reads it. -/
def evalDatum (home : Option Datum) (form : Datum) : Datum :=
  .list [.sym "geiser:eval", homeDatum home, form.quoted]

theorem quoteText_write {d : Datum} (h : d.Readable) :
    quoteText d.write = (Datum.str d.write).write := by
  have hescape : d.write.toList.flatMap escapeChar = Printer.escape d.write.toList := by
    rw [List.flatMap_def, Printer.escape, List.flatMap_def]
    refine congrArg List.flatten (List.map_congr_left fun c hc => ?_)
    rw [Datum.write, String.toList_ofList] at hc
    obtain ⟨-, htab, hreturn⟩ := Datum.isInline_chars h.lexical c hc
    simp only [escapeChar, Printer.escapeChar, if_neg htab, if_neg hreturn]
  rw [quoteText, hescape]
  rfl

/-- A text in front of a quoted form that is the given tokens there. -/
def Leads (w : List Char) (ts : List Token) : Prop :=
  ∀ (total : Nat) (blanks rest : List Char), (∀ c ∈ blanks, isBlank c = true) →
    Lexed.scanFrom total (blanks ++ (w ++ ' ' :: '\x27' :: rest)) =
      Lexed.prepend (ts ++ [Token.quote]) (Lexed.scanFrom total rest)

theorem scanFrom_quote {total : Nat} {blanks : List Char} (hb : ∀ c ∈ blanks, isBlank c = true)
    (rest : List Char) : Lexed.scanFrom total (blanks ++ '\x27' :: rest) =
      Lexed.prepend [Token.quote] (Lexed.scanFrom total rest) :=
  Lexed.scanFrom_blanks_append hb (by decide) rfl

theorem leads_of_yields {w : List Char} {ts : List Token} (h : Lexed.Yields w ts) :
    Leads w ts := by
  intro total blanks rest hb
  have hspace : ∀ c ∈ [' '], isBlank c = true := by decide
  rw [h total blanks _ hb (Token.atGap_cons (by decide) _), Lexed.prepend_append,
    ← scanFrom_quote hspace]
  rfl

theorem leads_quote {w : List Char} {ts : List Token} (h : Lexed.Yields w ts) :
    Leads ('\x27' :: w) (Token.quote :: ts) := by
  intro total blanks rest hb
  rw [List.cons_append, scanFrom_quote hb]
  change _ = Lexed.prepend ([Token.quote] ++ (ts ++ [Token.quote])) _
  rw [Lexed.prepend_append]
  exact congrArg _ (leads_of_yields h total [] rest (List.forall_mem_nil _))

/-- The name that begins like a character takes the blank in front of the form. -/
theorem leads_bareName : Leads ['\x27', '#', '\\'] [Token.quote, ⟨.char, ['#', '\\', ' ']⟩] := by
  intro total blanks rest hb
  have hnone : ∀ c ∈ [], isBlank c = true := List.forall_mem_nil _
  have hchar : Lexed.scanFrom total ([] ++ '#' :: '\\' :: ' ' :: '\x27' :: rest) =
      Lexed.prepend [⟨.char, ['#', '\\', ' ']⟩] (Lexed.scanFrom total ('\x27' :: rest)) :=
    Lexed.scanFrom_blanks_append hnone (by decide) rfl
  rw [List.cons_append, scanFrom_quote hb]
  change Lexed.prepend _ (Lexed.scanFrom total ([] ++ '#' :: '\\' :: ' ' :: '\x27' :: rest)) = _
  rw [hchar]
  change Lexed.prepend _ (Lexed.prepend _ (Lexed.scanFrom total ([] ++ '\x27' :: rest))) = _
  rw [scanFrom_quote hnone]
  rfl

theorem moduleText_of_readAll {text : String} {d : Datum} (h : Datum.readAll text = .ok [d]) :
    moduleText (some text) = .ok (if isName d then "'" ++ d.write else quoteText text) := by
  have hempty : text.isEmpty = false := by
    cases he : text.isEmpty with
    | false => rfl
    | true =>
      rw [String.isEmpty_iff.mp he, Datum.readAll_empty] at h
      cases h
  rw [moduleText, hempty, Datum.readOne_of_readAll h]
  cases d <;> rfl

theorem homeDatum_of_ne {d : Datum} (hne : d ≠ Datum.bareName) :
    homeDatum (some d) = if isName d then d.quoted else Datum.str d.write := by
  unfold homeDatum
  split
  · next heq => cases heq
  · next heq => cases heq; exact absurd rfl hne
  · next heq => cases heq; rfl

/-- The text of a module name in a request, and what the server reads there. -/
theorem moduleText_ok {home : Option Datum} (h : ∀ d ∈ home, d.ReadsBack) :
    ∃ w ts, moduleText (home.map Datum.write) = .ok (String.ofList w) ∧ Leads w ts ∧
      Datum.Reading.Delivers ts (homeDatum home) ∧ ∀ c ∈ w, Datum.IsInline c := by
  cases home with
  | none =>
    have hfalse : Datum.Readable (.bool false) := .bool false trivial
    exact ⟨['#', 'f'], _, rfl, leads_of_yields (Lexed.yields_word Token.isWord_false),
      hfalse.delivers, by decide⟩
  | some d =>
    have hd := h d rfl
    by_cases hbare : d = Datum.bareName
    · subst hbare
      refine ⟨['\x27', '#', '\\'], _, ?_, leads_bareName, ?_, by decide⟩
      · rw [Option.map_some, moduleText_of_readAll hd.readAll]
        rfl
      · exact Datum.Reading.delivers_quoted (Datum.Reading.delivers_of_take fun _ _ => rfl)
    have hr := hd.readable hbare
    rw [Option.map_some, moduleText_of_readAll hd.readAll, homeDatum_of_ne hbare]
    cases hname : isName d with
    | true =>
      have htext : String.ofList (['\x27'] ++ Node.chars Empty.elim true d) = "'" ++ d.write :=
        String.ofList_append
      exact ⟨'\x27' :: Node.chars Empty.elim true d, _, congrArg Except.ok htext.symm,
        leads_quote (Lexed.yields_chars hr.lexical), Datum.Reading.delivers_quoted hr.delivers,
        List.forall_mem_cons.mpr ⟨by decide, Datum.isInline_chars hr.lexical⟩⟩
    | false =>
      have htext : Datum.Readable (Datum.str d.write) := .str _ trivial
      exact ⟨_, _, congrArg Except.ok (quoteText_write hr),
        leads_of_yields (Lexed.yields_chars htext.lexical), htext.delivers,
        Datum.isInline_chars htext.lexical⟩

/-- The tokens of a request in front of the form. -/
def callTokens (ts : List Token) : List Token :=
  Token.listOpen :: ⟨.word, "geiser:eval".toList⟩ :: (ts ++ [Token.quote])

/-- The text of a request. -/
def callText (home form : String) : String := "(geiser:eval " ++ home ++ " '" ++ form ++ ")"

theorem toList_callText (w form : List Char) :
    (callText (String.ofList w) (String.ofList form)).toList =
      '(' :: ("geiser:eval".toList ++ ' ' :: (w ++ ' ' :: '\x27' :: (form ++ [')']))) := by
  have hjoin : ∀ a b c d e : String, (a ++ b ++ c ++ d ++ e).toList =
      a.toList ++ (b.toList ++ (c.toList ++ (d.toList ++ e.toList))) := by simp
  have hw : (String.ofList w).toList = w := String.toList_ofList
  have hform : (String.ofList form).toList = form := String.toList_ofList
  exact (hjoin _ _ _ _ _).trans (by rw [hw, hform]; rfl)

theorem scanFrom_call {w : List Char} {ts : List Token} (h : Leads w ts) (total : Nat)
    {blanks : List Char} (hb : ∀ c ∈ blanks, isBlank c = true) (rest : List Char) :
    Lexed.scanFrom total
        (blanks ++ '(' :: ("geiser:eval".toList ++ ' ' :: (w ++ ' ' :: '\x27' :: rest))) =
      Lexed.prepend (callTokens ts) (Lexed.scanFrom total rest) := by
  have hnone : ∀ c ∈ [], isBlank c = true := List.forall_mem_nil _
  have hspace : ∀ c ∈ [' '], isBlank c = true := by decide
  have hword : Token.IsWord "geiser:eval".toList := ⟨by decide, by decide, rfl⟩
  calc
    _ = Lexed.prepend [Token.listOpen] (Lexed.scanFrom total ("geiser:eval".toList ++
        ' ' :: (w ++ ' ' :: '\x27' :: rest))) :=
      Lexed.scanFrom_blanks_append hb (by decide) rfl
    _ = Lexed.prepend [Token.listOpen] (Lexed.prepend [Token.ofWord "geiser:eval".toList]
        (Lexed.scanFrom total ([' '] ++ (w ++ ' ' :: '\x27' :: rest)))) :=
      congrArg _ (Lexed.yields_word hword total [] _ hnone (Token.atGap_cons (by decide) _))
    _ = _ := by
      rw [h total [' '] rest hspace]
      rfl

/-- The tokens of a request, wherever it stands. -/
theorem splits_call {w : List Char} {ts : List Token} (hw : Leads w ts) {form : Datum}
    (hf : form.Readable) : Lexed.Splits (callText (String.ofList w) form.write).toList
      (callTokens ts ++ (form.tokens ++ [Token.close])) := by
  intro total blanks rest hb
  have hnone : ∀ c ∈ [], isBlank c = true := List.forall_mem_nil _
  have hyields := Lexed.yields_chars hf.lexical total [] (')' :: rest) hnone
    (Lexed.atGap_close rest)
  rw [List.nil_append, Lexed.scanFrom_close, ← Lexed.prepend_append] at hyields
  rw [Lexed.prepend_append, ← hyields, ← scanFrom_call hw total hb, Datum.write, toList_callText]
  simp

/-- The name that begins like a character takes the bracket that was to close the request. -/
theorem splits_call_bareName {w : List Char} {ts : List Token} (hw : Leads w ts) :
    Lexed.Splits (callText (String.ofList w) Datum.bareName.write).toList
      (callTokens ts ++ [⟨.char, ['#', '\\', ')']⟩]) := by
  intro total blanks rest hb
  have hnone : ∀ c ∈ [], isBlank c = true := List.forall_mem_nil _
  have hchar : Lexed.scanFrom total ('#' :: '\\' :: ')' :: rest) =
      Lexed.prepend [⟨.char, ['#', '\\', ')']⟩] (Lexed.scanFrom total rest) :=
    Lexed.scanFrom_blanks_append hnone (by decide) rfl
  have htext : Datum.bareName.write = String.ofList ['#', '\\'] := rfl
  rw [Lexed.prepend_append, ← hchar, ← scanFrom_call hw total hb, htext, toList_callText]
  simp

/-- What is open when the form of a request is read. -/
def awaiting (home : Datum) (stack : List Datum.Open) : List Datum.Open :=
  .quoted "quote" :: .list [home, .sym "geiser:eval"] :: stack

section Reading

open Datum.Reading

variable {ts : List Token} {home : Datum}

theorem run_callTokens (h : Delivers ts home) (done : List Datum) {stack : List Datum.Open}
    (hs : Takes stack) : run ⟨done, stack⟩ (callTokens ts) = .ok ⟨done, awaiting home stack⟩ := by
  have hopen : run ⟨done, stack⟩ (callTokens ts) =
      run ⟨done, .list [.sym "geiser:eval"] :: stack⟩ (ts ++ [Token.quote]) := by
    rw [callTokens, run_cons_of_takes hs]
    rfl
  rw [hopen, run_append, h done (.list [.sym "geiser:eval"] :: stack) trivial]
  rfl

variable {us : List Token} {form : Datum}

/-- A request without its bracket leaves its list open. -/
theorem run_call_open (h : Delivers ts home) (hf : Delivers us form) (done : List Datum)
    {stack : List Datum.Open} (hs : Takes stack) : run ⟨done, stack⟩ (callTokens ts ++ us) =
      .ok ⟨done, .list [form.quoted, home, .sym "geiser:eval"] :: stack⟩ := by
  rw [run_append, run_callTokens h done hs]
  change run ⟨done, awaiting home stack⟩ us = _
  rw [hf done (awaiting home stack) trivial]
  rfl

/-- A request reads as a call of the service. -/
theorem delivers_call (h : Delivers ts home) (hf : Delivers us form) :
    Delivers (callTokens ts ++ (us ++ [Token.close]))
      (.list [.sym "geiser:eval", home, form.quoted]) := by
  intro done stack hs
  rw [← List.append_assoc, run_append, run_call_open h hf done hs]
  rfl

/-- What a spoiled request has in place of its form and its bracket. -/
theorem delivers_bareName : Delivers [⟨.char, ['#', '\\', ')']⟩] (.char ')') :=
  delivers_of_take fun _ _ => rfl

end Reading

theorem readAll_of_splits {text : String} {ts : List Token} (h : Lexed.Splits text.toList ts)
    {blanks : List Char} (hb : ∀ c ∈ blanks, isBlank c = true) {r : Datum.Reading}
    (hr : Datum.Reading.start.run ts = .ok r) :
    Datum.readAll (text ++ String.ofList blanks) = r.result none := by
  have hscan : Lexed.ofText (text ++ String.ofList blanks).toList = ⟨ts, none⟩ := by
    rw [String.toList_append, String.toList_ofList, h.ofText hb]
  rw [Datum.readAll_of_run (by rw [hscan]; exact hr), hscan]

/-- A request reads as a call of the service, also in front of blanks. -/
theorem readAll_call {w : List Char} {ts : List Token} {home form : Datum} (hw : Leads w ts)
    (hts : Datum.Reading.Delivers ts home) (hf : form.Readable) {blanks : List Char}
    (hb : ∀ c ∈ blanks, isBlank c = true) :
    Datum.readAll (callText (String.ofList w) form.write ++ String.ofList blanks) =
      .ok [.list [.sym "geiser:eval", home, form.quoted]] :=
  readAll_of_splits (splits_call hw hf) hb (delivers_call hts hf.delivers [] [] trivial)

theorem readAll_call_bareName {w : List Char} {ts : List Token} {home : Datum} (hw : Leads w ts)
    (hts : Datum.Reading.Delivers ts home) {blanks : List Char}
    (hb : ∀ c ∈ blanks, isBlank c = true) :
    Datum.readAll (callText (String.ofList w) Datum.bareName.write ++ String.ofList blanks) =
      .error (.incomplete .list) :=
  readAll_of_splits (splits_call_bareName hw) hb (run_call_open hts delivers_bareName [] trivial)

/-- The text that a command to evaluate is sent as. -/
theorem evalText_ok {home : Option Datum} (h : ∀ d ∈ home, d.ReadsBack) (form : String) :
    ∃ w ts, evalText (home.map Datum.write) (some form) = .ok (callText (String.ofList w) form) ∧
      Leads w ts ∧ Datum.Reading.Delivers ts (homeDatum home) ∧ ∀ c ∈ w, Datum.IsInline c := by
  obtain ⟨w, ts, htext, hw, hts, hinline⟩ := moduleText_ok h
  refine ⟨w, ts, ?_, hw, hts, hinline⟩
  rw [evalText, htext]
  rfl

end Command

end LiveScheme
