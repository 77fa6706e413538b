import LiveScheme.Proofs.Buffer.Brackets
import LiveScheme.Proofs.Buffer.Cursor
import LiveScheme.Proofs.Buffer.Pieces

/-!
# The procedure that is called

The help for a call looks back for the last bracket that opens and takes the word behind it. The
head of the innermost open form is found by going through the tokens. Both are the same when that
form was the last to open and its head stands alone in it. Once another bracket has opened, in a
form that is closed again, in a string, in a comment or as a character, the word behind that bracket
is taken instead.
-/

namespace LiveScheme.Buffer

open Scanner Text Token

variable {text front after : List Char} {f : OpenForm} {h : List Char} {t : Span} {ts : List Span}

/-- The text behind the bracket that opens the form. -/
def OpenForm.inside (text : List Char) (f : OpenForm) : List Char :=
  ((text.drop f.start).dropWhile (!isOpening ·)).drop 1

/-- The first thing in the text is a word, and a blank or nothing stands on either side of it. -/
def BeginsWithWord (cs : List Char) : Prop :=
  ∃ blanks w rest, cs = blanks ++ w ++ rest ∧ (∀ c ∈ blanks, isBlank c = true) ∧ IsWord w ∧
    ∀ c ∈ rest.head?, isBlank c = true

section FirstWord

/-- A character that ends the name of a procedure. -/
def endsName (c : Char) : Bool := isBlank c || isOpening c || c == ')' || c == ']'

/-- The first word of a text, if it begins with one. -/
def firstWord (cs : List Char) : List Char := (trim cs).takeWhile (!endsName ·)

theorem callee?_of_no_opening {b : Char} (hb : isOpening b = true)
    (hafter : ∀ c ∈ after, isOpening c = false) :
    callee? (front ++ [b] ++ after) =
      if (firstWord after).isEmpty then none else some (firstWord after) := by
  have hany : (front ++ [b] ++ after).any isOpening = true := by simp [hb]
  have hend : takeEnd (!isOpening ·) (front ++ [b] ++ after) = after := by
    rw [takeEnd_append (by simp [hb]), takeEnd_of_forall fun c hc => by simp [hafter c hc]]
  rw [callee?, if_pos hany, hend]
  rfl

theorem callee?_of_opening {b : Char} (hb : isOpening b = true)
    (hafter : ∃ c ∈ after, isOpening c = true) :
    callee? (front ++ [b] ++ after) = callee? after := by
  have hany : after.any isOpening = true := List.any_eq_true.mpr hafter
  have hwhole : (front ++ [b] ++ after).any isOpening = true := by simp [hb]
  rw [callee?, callee?, if_pos hwhole, if_pos hany, takeEnd_append (by simp [hb])]

theorem exists_dropEnd (cs : List Char) : ∃ blanks, cs = dropEnd isBlank cs ++ blanks ∧
    ∀ c ∈ blanks, isBlank c = true := by
  refine ⟨(cs.reverse.takeWhile isBlank).reverse, ?_, fun c hc => ?_⟩
  · rw [dropEnd, ← List.reverse_append, List.takeWhile_append_dropWhile, List.reverse_reverse]
  · exact List.all_eq_true.mp List.all_takeWhile c (List.mem_reverse.mp hc)

/-- Blanks at the end of a text do not change its first word. -/
theorem firstWord_eq (cs : List Char) : firstWord cs = (trimStart cs).takeWhile (!endsName ·) := by
  obtain ⟨blanks, hcut, hblanks⟩ := exists_dropEnd (trimStart cs)
  have hstop : blanks.takeWhile (!endsName ·) = [] := by
    cases blanks with
    | nil => rfl
    | cons c blanks => simp [endsName, hblanks c List.mem_cons_self]
  rw [firstWord, trim]
  conv_rhs => rw [hcut]
  rw [List.takeWhile_append, hstop, List.append_nil]
  split
  · next hall => rw [(List.takeWhile_prefix _).eq_of_length hall]
  · rfl

theorem endsName_of_isWordChar {c : Char} (hc : isWordChar c = true) : endsName c = false := by
  have hbreak := isBreak_of_isWordChar hc
  simp only [isBreak, Bool.or_eq_false_iff] at hbreak
  simp [endsName, isOpening, hbreak]

/-- A text begins with a word up to a character that ends names exactly when the word stands there
behind blanks only. -/
theorem firstWord_eq_iff {cs : List Char} (hword : IsWord h) : firstWord cs = h ↔
    ∃ blanks rest, cs = blanks ++ h ++ rest ∧ (∀ c ∈ blanks, isBlank c = true) ∧
      ∀ c ∈ rest.head?, endsName c = true := by
  rw [firstWord_eq]
  constructor
  · intro hfirst
    have hcut := List.takeWhile_append_dropWhile (p := isBlank) (l := cs)
    have hcut' := List.takeWhile_append_dropWhile (p := (!endsName ·)) (l := trimStart cs)
    rw [hfirst] at hcut'
    refine ⟨cs.takeWhile isBlank, (trimStart cs).dropWhile (!endsName ·), ?_,
      List.all_eq_true.mp List.all_takeWhile, fun c hc => ?_⟩
    · rw [List.append_assoc, hcut']
      exact hcut.symm
    · simpa using head_dropWhile c hc
  · rintro ⟨blanks, rest, rfl, hblanks, hrest⟩
    obtain ⟨c, w, rfl⟩ := List.exists_cons_of_ne_nil hword.ne_nil
    have hc := isBlank_of_isWordChar (hword.chars c List.mem_cons_self)
    rw [List.append_assoc, trimStart, List.dropWhile_append_of_pos hblanks, List.cons_append,
      List.dropWhile_cons_of_neg (by simp [hc]), ← List.cons_append]
    refine takeWhile_append_of_all (fun d hd => ?_) fun d hd => by simp [hrest d hd]
    simp [endsName_of_isWordChar (hword.chars d hd)]

end FirstWord

section Inside

variable {before later : List Span}

theorem mem_of_mem_texts {cs w : List Char} (hw : w ∈ texts cs) : ∀ c ∈ w, c ∈ cs := by
  intro c hc
  rw [← map_text_tokens] at hw
  obtain ⟨u, hu, rfl⟩ := List.mem_map.mp hw
  exact List.mem_of_mem_drop ((standsIn_of_mem hu).begins.subset hc)

/-- An opener is a bracket, or a number sign in front of one. -/
theorem opener_cases (ht : t.isOpener = true) : ∃ mark b, t.text = mark ++ [b] ∧
    isOpening b = true ∧ (∀ c ∈ mark, isOpening c = false) ∧
    ∀ rest, texts (t.text ++ rest) = t.text :: texts rest := by
  simp only [Span.isOpener, Bool.or_eq_true, beq_iff_eq] at ht
  rcases ht with (ht | ht) | ht
  · exact ⟨[], '(', ht, rfl, List.forall_mem_nil _, fun rest => by rw [ht]; exact texts_cons_of_not rfl⟩
  · refine ⟨['#'], '(', ht, rfl, by decide, fun rest => ?_⟩
    rw [ht]
    exact texts_cons_of_not rfl
  · exact ⟨[], '[', ht, rfl, List.forall_mem_nil _, fun rest => by rw [ht]; exact texts_cons_of_not rfl⟩

/-- What is inside a form follows the bracket that opens it, in the text and among the tokens. -/
theorem inside_cuts (htokens : tokens text = before ++ t :: later) (ht : t.isOpener = true)
    (hstart : t.start = f.start) : ∃ front b, text = front ++ [b] ++ f.inside text ∧
      isOpening b = true ∧ later.map (·.text) = texts (f.inside text) := by
  have hmem : t ∈ tokens text := by simp [htokens]
  obtain ⟨rest, hrest⟩ := (standsIn_of_mem hmem).begins
  obtain ⟨mark, b, htext, hb, hmark, htexts⟩ := opener_cases ht
  have hinside : f.inside text = rest := by
    rw [OpenForm.inside, ← hstart, ← hrest, htext, List.append_assoc,
      List.dropWhile_append_of_pos fun c hc => by simp [hmark c hc]]
    simp [hb]
  have hlater : (t :: later).map (·.text) = texts (text.drop t.start) := by
    rw [← tokens_drop htokens, ← map_text_tokens, List.map_map]
    rfl
  refine ⟨text.take t.start ++ mark, b, ?_, hb, ?_⟩
  · conv_lhs => rw [← List.take_append_drop t.start text, ← hrest, htext]
    rw [hinside]
    simp
  · rw [← hrest, htexts, List.map_cons] at hlater
    rw [hinside]
    exact (List.cons.inj hlater).2

/-- In a text without brackets no token opens a form. -/
theorem not_isOpener_of_texts {cs : List Char} (hlater : later.map (·.text) = texts cs)
    (hnone : ∀ c ∈ cs, isOpening c = false) : ∀ u ∈ later, u.isOpener = false := by
  intro u hu
  refine Bool.eq_false_iff.mpr fun hopen => ?_
  obtain ⟨mark, b, htext, hb, -, -⟩ := opener_cases hopen
  have hmem : u.text ∈ texts cs := hlater ▸ List.mem_map_of_mem hu
  have hbracket := hnone b (mem_of_mem_texts hmem b (by simp [htext]))
  rw [hb] at hbracket
  cases hbracket

/-- Where nothing opens and the form stays open, nothing closes. -/
theorem not_isCloser_of_open (hopen : ∀ u ∈ ts, u.isOpener = false)
    (hclosing : closingStart 1 ts = none) : ∀ u ∈ ts, u.isCloser = false := by
  induction ts with
  | nil => exact List.forall_mem_nil _
  | cons u ts ih =>
    obtain ⟨hu, hts⟩ := List.forall_mem_cons.mp hopen
    rw [closingStart, hu, if_neg Bool.false_ne_true] at hclosing
    cases hclose : u.isCloser with
    | true => simp [hclose] at hclosing
    | false =>
      rw [hclose, if_neg Bool.false_ne_true] at hclosing
      exact List.forall_mem_cons.mpr ⟨hclose, ih hts hclosing⟩

theorem noteWord_cons (word : List Char) (f : OpenForm) (stack : List OpenForm) : ∃ g,
    noteWord word (f :: stack) = g :: stack ∧ g.head = f.head.or (some word) := by
  obtain ⟨start, head, name⟩ := f
  cases head with
  | none => exact ⟨_, rfl, rfl⟩
  | some w =>
    refine ⟨_, rfl, ?_⟩
    split <;> rfl

/-- Tokens that neither open nor close a form only name the innermost one: its head is the first of
them that is no mark. -/
theorem foldl_noteToken (text : List Char)
    (hts : ∀ u ∈ ts, u.isOpener = false ∧ u.isCloser = false) (f : OpenForm)
    (stack : List OpenForm) : ∃ g, ts.foldl (noteToken text) (f :: stack) = g :: stack ∧
      g.head = f.head.or ((ts.find? (!·.isMark)).map (·.text)) := by
  induction ts generalizing f with
  | nil => exact ⟨f, rfl, by simp⟩
  | cons u ts ih =>
    obtain ⟨⟨hopen, hclose⟩, hts⟩ := List.forall_mem_cons.mp hts
    rw [List.foldl_cons, noteToken, hopen, hclose, if_neg Bool.false_ne_true,
      if_neg Bool.false_ne_true]
    cases hmark : u.isMark with
    | true =>
      obtain ⟨g, hfold, hhead⟩ := ih hts f
      exact ⟨g, hfold, by rw [hhead]; simp [hmark]⟩
    | false =>
      obtain ⟨g, hnote, hfirst⟩ := noteWord_cons u.text f stack
      obtain ⟨g', hfold, hhead⟩ := ih hts g
      refine ⟨g', by rw [if_neg Bool.false_ne_true, hnote, hfold], ?_⟩
      rw [hhead, hfirst, List.find?_cons_of_pos (by simp [hmark])]
      cases f.head <;> rfl

theorem tokensBefore_length (text : List Char) : tokensBefore text text.length = tokens text :=
  List.takeWhile_eq_self_iff.mpr fun u hu => by
    have hstands := standsIn_of_mem hu
    exact decide_eq_true (Nat.lt_of_lt_of_le hstands.start_lt hstands.stop_le)

/-- The innermost form is opened by a token that nothing closes. -/
theorem exists_opener (hf : (openForms text text.length).head? = some f) :
    ∃ before t later, tokens text = before ++ t :: later ∧ t.isOpener = true ∧
      t.start = f.start ∧ closingStart 1 later = none := by
  have hmem : f.start ∈ (openForms text text.length).reverse.map (·.start) :=
    List.mem_map_of_mem (List.mem_reverse.mpr (List.mem_of_mem_head? hf))
  rw [map_start_openForms, tokensBefore_length] at hmem
  obtain ⟨t, ht, hstart⟩ := List.mem_map.mp hmem
  obtain ⟨before, later, htokens, hopen, hclosing⟩ := mem_unclosed.mp ht
  exact ⟨before, t, later, htokens, hopen, hstart, hclosing⟩

/-- The head of the form that was the last to open. -/
theorem head_eq (hf : (openForms text text.length).head? = some f)
    (htokens : tokens text = before ++ t :: later) (ht : t.isOpener = true)
    (hlater : ∀ u ∈ later, u.isOpener = false ∧ u.isCloser = false) :
    f.head = (later.find? (!·.isMark)).map (·.text) := by
  have hforms : openForms text text.length = (tokens text).foldl (noteToken text) [] :=
    congrArg (List.foldl (noteToken text) []) (tokensBefore_length text)
  have hopened : ∃ stack, noteToken text (before.foldl (noteToken text) []) t =
      ⟨t.start, none, none⟩ :: stack := by
    unfold noteToken
    rw [if_pos ht]
    exact ⟨_, rfl⟩
  obtain ⟨stack, hopened⟩ := hopened
  obtain ⟨g, hfold, hhead⟩ := foldl_noteToken text hlater ⟨t.start, none, none⟩ stack
  rw [hforms, htokens, List.foldl_append, List.foldl_cons, hopened, hfold] at hf
  cases hf
  exact hhead

end Inside

section Word

theorem not_isMark_of_isWord (hword : IsWord t.text) : t.isMark = false := by
  refine Bool.eq_false_iff.mpr fun hmark => ?_
  have hchars := hword.chars
  simp only [Span.isMark, Bool.or_eq_true, beq_iff_eq] at hmark
  rcases hmark with (((htext | htext) | htext) | htext) | htext <;> rw [htext] at hchars <;>
    exact absurd hchars (by decide)

/-- A word in front of a gap is the first token of a text. -/
theorem texts_of_word {blanks w rest : List Char} (hblanks : ∀ c ∈ blanks, isBlank c = true)
    (hword : IsWord w) (hrest : AtGap rest) : texts (blanks ++ w ++ rest) = w :: texts rest := by
  obtain ⟨c, w, rfl⟩ := List.exists_cons_of_ne_nil hword.ne_nil
  have hscan : scan (c :: (w ++ rest)) = .token (ofWord (c :: w)) rest :=
    scan_word_append hword hrest
  have hc := isBlank_of_isWordChar (hword.chars c List.mem_cons_self)
  have happ : c :: (w ++ rest) = (ofWord (c :: w)).text ++ rest := by rw [ofWord_text]; rfl
  have hbegins := begins_of_scan hc hscan
  have hskip := isSkipped_of_begins hbegins happ
  obtain ⟨htext, hdrop⟩ := piece_of_begins hbegins happ
  rw [htext] at hskip
  rw [List.append_assoc, List.cons_append, ← texts_trimStart, Lexed.trimStart_append_cons hblanks hc,
    texts_cons_of_not hskip, ← htext, ← hdrop, ofWord_text]

theorem firstWord_of_beginsWithWord {cs : List Char} (h : BeginsWithWord cs) :
    ∃ rest, IsWord (firstWord cs) ∧ texts cs = firstWord cs :: texts rest := by
  obtain ⟨blanks, w, rest, rfl, hblanks, hword, hrest⟩ := h
  have hfirst : firstWord (blanks ++ w ++ rest) = w :=
    (firstWord_eq_iff hword).mpr ⟨blanks, rest, rfl, hblanks, fun c hc => by
      simp [endsName, hrest c hc]⟩
  rw [hfirst]
  exact ⟨rest, hword, texts_of_word hblanks hword fun c hc => by simp [isGap, hrest c hc]⟩

/-- Where no bracket follows a first word, a blank or nothing does. -/
theorem beginsWithWord_of_firstWord {cs : List Char} (hword : IsWord h) (hfirst : firstWord cs = h)
    (hopen : ∀ c ∈ cs, isOpening c = false) (hclose : [')'] ∉ texts cs ∧ [']'] ∉ texts cs) :
    BeginsWithWord cs := by
  obtain ⟨blanks, rest, rfl, hblanks, hrest⟩ := (firstWord_eq_iff hword).mp hfirst
  have hgap : AtGap rest := fun c hc => by
    have hc' : c ∈ blanks ++ h ++ rest := List.mem_append_right _ (List.mem_of_mem_head? hc)
    simpa [endsName, hopen c hc', isGap] using hrest c hc
  refine ⟨blanks, h, rest, rfl, hblanks, hword, fun c hc => ?_⟩
  obtain ⟨more, rfl⟩ := List.head?_eq_some_iff.mp hc
  have htexts := texts_of_word hblanks hword hgap
  have hends := hgap c rfl
  simp only [isGap, Bool.or_eq_true, beq_iff_eq] at hends
  rcases hends with (hblank | rfl) | rfl
  · exact hblank
  · have hcut : texts (')' :: more) = [')'] :: texts more := texts_cons_of_not rfl
    refine absurd ?_ hclose.1
    rw [htexts, hcut]
    simp
  · have hcut : texts (']' :: more) = [']'] :: texts more := texts_cons_of_not rfl
    refine absurd ?_ hclose.2
    rw [htexts, hcut]
    simp

end Word

/-- The help for a call names the head of the innermost form, a word, if and only if no bracket has
opened inside the form and the head is the first thing in it, between blanks; or one has, and the
word behind the last one inside happens to be the same. -/
theorem callee?_eq_head_iff (hf : (openForms text text.length).head? = some f)
    (hhead : f.head = some h) (hword : IsWord h) :
    callee? text = f.head ↔
      (∀ c ∈ f.inside text, isOpening c = false) ∧ BeginsWithWord (f.inside text) ∨
      (∃ c ∈ f.inside text, isOpening c = true) ∧ callee? (f.inside text) = f.head := by
  obtain ⟨before, t, later, htokens, ht, hstart, hclosing⟩ := exists_opener hf
  obtain ⟨front, b, htext, hb, hlater⟩ := inside_cuts htokens ht hstart
  by_cases hopening : ∃ c ∈ f.inside text, isOpening c = true
  · have hcallee : callee? text = callee? (f.inside text) := by
      conv_lhs => rw [htext]
      exact callee?_of_opening hb hopening
    have hnot : ¬ ∀ c ∈ f.inside text, isOpening c = false := by
      obtain ⟨c, hc, htrue⟩ := hopening
      intro hall
      rw [hall c hc] at htrue
      cases htrue
    rw [hcallee]
    simp [hopening, hnot]
  · have hnone : ∀ c ∈ f.inside text, isOpening c = false := fun c hc =>
      Bool.eq_false_iff.mpr fun htrue => hopening ⟨c, hc, htrue⟩
    have hcallee : callee? text = if (firstWord (f.inside text)).isEmpty then none
        else some (firstWord (f.inside text)) := by
      conv_lhs => rw [htext]
      exact callee?_of_no_opening hb hnone
    have hopen := not_isOpener_of_texts hlater hnone
    have hclose := not_isCloser_of_open hopen hclosing
    rw [hcallee]
    constructor
    · intro hnamed
      refine .inl ⟨hnone, ?_⟩
      have hfirst : firstWord (f.inside text) = h := by
        rw [hhead] at hnamed
        split at hnamed
        · cases hnamed
        · exact Option.some.inj hnamed
      refine beginsWithWord_of_firstWord hword hfirst hnone ?_
      rw [← hlater]
      constructor <;> intro hmem <;> obtain ⟨u, hu, htext⟩ := List.mem_map.mp hmem <;>
        simpa [Span.isCloser, htext] using hclose u hu
    · rintro (⟨-, hbegins⟩ | ⟨hsome, -⟩)
      · obtain ⟨rest, hfirst, htexts⟩ := firstWord_of_beginsWithWord hbegins
        rw [← hlater] at htexts
        obtain ⟨u, us, rfl, hu, -⟩ := List.map_eq_cons_iff.mp htexts
        rw [← hu] at hfirst ⊢
        rw [head_eq hf htokens ht fun u hu => ⟨hopen u hu, hclose u hu⟩,
          List.find?_cons_of_pos (by simp [not_isMark_of_isWord hfirst])]
        simp [hfirst.ne_nil]
      · exact absurd hsome hopening

/-- A call behind another one that is closed, both inside a third one. -/
def nested : List Char := "(f (g \"(\") [h x ".toList

theorem callee?_nested : (openForms nested nested.length).head? = some ⟨11, some ['h'], none⟩ ∧
    IsWord ['h'] ∧ callee? nested = some ['h'] := by
  have hform : (openForms nested nested.length).head? = some ⟨11, some ['h'], none⟩ := by
    decide +kernel
  have hword : IsWord ['h'] := ⟨by decide, by decide, rfl⟩
  have hinside : OpenForm.inside nested ⟨11, some ['h'], none⟩ = "h x ".toList := rfl
  refine ⟨hform, hword, (callee?_eq_head_iff hform rfl hword).mpr (.inl ?_)⟩
  rw [hinside]
  exact ⟨by decide, [], ['h'], " x ".toList, rfl, by decide, hword, fun c hc => by cases hc; rfl⟩

end LiveScheme.Buffer
