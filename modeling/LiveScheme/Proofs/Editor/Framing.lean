import LiveScheme.Proofs.Editor.Evaluation
import LiveScheme.Proofs.Editor.Lines

/-!
# Replies and their lines

A reply is one datum on what the server takes for one line. The session cuts it at every character
that ends a line, though, and drops prompts from each piece, so a reply arrives as it was sent
exactly when every piece of it has something on it that is not blank and begins with no prompt. What
goes wrong otherwise goes wrong inside a text of the reply: either the reply ends early and leaves a
rest for the next request, or it arrives as the reply with the prompts in its texts left out.
-/

namespace LiveScheme

open Text

namespace Reply

/-- What an editor makes of a reply. -/
def decoded : Reply → EvalReply
  | result values output => .result values output
  | error message => .error message

theorem decoded_injective : Function.Injective decoded := by
  intro r r' h
  cases r <;> cases r' <;> cases h <;> rfl

theorem readableName_of_key {name : String} (h : name ∈ ["result", "output", "error", "key"]) :
    ReadableName name := by
  revert name
  decide

/-- The association of a name and a text. -/
theorem readable_pair {name : String} (h : ReadableName name) (text : String) :
    (Datum.improper [.sym name] (Datum.str text)).Readable :=
  .improper _ _ (by simp) (by simpa using .sym name h) (.str text trivial) rfl

theorem readable_datum (r : Reply) : r.datum.Readable := by
  cases r with
  | result values output =>
    have hvalues : (Datum.list (.sym "result" ::
        values.map fun text => Datum.str text)).Readable := by
      refine .list _ (List.forall_mem_cons.mpr ⟨.sym _ (readableName_of_key (by simp)), ?_⟩)
      rintro d hd
      obtain ⟨text, -, rfl⟩ := List.mem_map.mp hd
      exact .str text trivial
    refine .list _ (List.forall_mem_cons.mpr ⟨hvalues, ?_⟩)
    simpa using readable_pair (readableName_of_key (by simp)) output
  | error message =>
    have hentry : (Datum.list [.sym "error",
        Datum.improper [.sym "key"] (Datum.str message)]).Readable := by
      refine .list _ (List.forall_mem_cons.mpr ⟨.sym _ (readableName_of_key (by simp)), ?_⟩)
      simpa using readable_pair (readableName_of_key (by simp)) message
    exact .list _ (by simpa using hentry)

end Reply

namespace Decode

theorem label_str (text : String) : (Datum.str text).label = text := String.ofList_toList

theorem label_sym (name : String) : Datum.label (.sym name) = name := String.ofList_toList

theorem key?_list_sym (name : String) (items : List Datum) :
    key? (.list (.sym name :: items)) = some name :=
  congrArg some (label_sym name)

theorem key?_pair (name text : String) :
    key? (.improper [.sym name] (Datum.str text)) = some name :=
  congrArg some (label_sym name)

/-- An editor makes of the text of a reply what the reply is. -/
theorem evalReply_write (r : Reply) : evalReply r.datum.write = .ok r.decoded := by
  have hnone : ∀ c ∈ [], isBlank c = true := List.forall_mem_nil _
  have hread := r.readable_datum.reads hnone
  rw [List.append_nil] at hread
  have hparse : parse r.datum.write = pure r.datum := by
    rw [parse, Datum.write, Datum.readOne_of_readAll hread]
    rfl
  unfold evalReply
  rw [hparse, pure_bind]
  cases r with
  | result values output =>
    have herror : errorOf (Reply.result values output).datum = none := by
      simp [errorOf, labelled?, Reply.datum, Node.elements?, key?_list_sym, key?_pair]
    have hresult : labelled? (Reply.result values output).datum "result" =
        some (.list (.sym "result" :: values.map fun text => Datum.str text)) := by
      simp [labelled?, Reply.datum, Node.elements?, key?_list_sym]
    have houtput : labelled? (Reply.result values output).datum "output" =
        some (.improper [.sym "output"] (Datum.str output)) := by
      simp [labelled?, Reply.datum, Node.elements?, key?_list_sym, key?_pair]
    rw [herror]
    dsimp only
    rw [hresult, houtput]
    change Except.ok (EvalReply.result ((values.map fun text => Datum.str text).map (·.label))
      (Datum.str output).label) = _
    have hvalues : (values.map fun text => Datum.str text).map (·.label) = values := by
      simp [Function.comp_def, label_str]
    rw [hvalues, label_str]
    rfl
  | error message =>
    have herror : errorOf (Reply.error message).datum = some (.error message) := by
      simp [errorOf, labelled?, Reply.datum, Node.elements?, key?_list_sym, key?_pair, rest,
        label_str]
    rw [herror]
    rfl

end Decode

namespace Reply

theorem write_injective {r r' : Reply} (h : r.datum.write = r'.datum.write) : r = r' := by
  have hr := Decode.evalReply_write r
  rw [h, Decode.evalReply_write] at hr
  exact (decoded_injective (Except.ok.inj hr)).symm

theorem ne_feed_of_mem_write (r : Reply) : ∀ c ∈ r.datum.write.toList, c ≠ '\n' := by
  intro c hc
  rw [Datum.write, String.toList_ofList] at hc
  exact (Datum.isInline_chars r.readable_datum.lexical c hc).1

end Reply

/-- The text of a reply is one line, from which an editor has all that the reply says back,
whatever characters its texts consist of, and no result looks like an error. -/
theorem Decode.evalReply_lossless :
    (∀ values output, evalReply (Reply.result values output).datum.write =
      .ok (.result values output)) ∧
    (∀ message, evalReply (Reply.error message).datum.write = .ok (.error message)) ∧
    (∀ r : Reply, '\n' ∉ r.datum.write.toList) ∧
    ∀ values output message,
      (Reply.result values output).datum.write ≠ (Reply.error message).datum.write := by
  refine ⟨?_, ?_, ?_, ?_⟩
  · intro values output
    exact evalReply_write (.result values output)
  · intro message
    exact evalReply_write (.error message)
  · intro r hfeed
    exact r.ne_feed_of_mem_write '\n' hfeed rfl
  · intro values output message heq
    cases Reply.write_injective heq

namespace Printer

open Command

/-- What stands behind an escaped text in a reply: no prompt ends in it. -/
structure Stops (stop : List Char) : Prop where
  noPrompt : NoPrompt stop
  noSpace : stop.head? ≠ some ' '

/-- Behind the quotation mark come other marks up to a blank. -/
theorem stops_quotation {as : List Char} (h : ∀ c ∈ as, c ≠ '>') {b : Char}
    (hb : isBlank b = true) (more : List Char) : Stops ('\x22' :: (as ++ b :: more)) where
  noPrompt := noPrompt_of_blank (List.forall_mem_cons.mpr ⟨by decide, h⟩) hb more
  noSpace := by simp

theorem escape_space {stop : List Char} (hstop : Stops stop) {s rest : List Char}
    (h : escape s ++ stop = ' ' :: rest) :
    ∃ s', s'.length ≤ s.length ∧ rest = escape s' ++ stop := by
  cases s with
  | nil => exact absurd (congrArg List.head? h) hstop.noSpace
  | cons c s =>
    rw [escape_cons, List.append_assoc] at h
    rcases escapeChar_cases c with ⟨e, -, hc, -⟩ | ⟨hc, -⟩ <;> rw [hc] at h
    · cases (List.cons.inj h).1
    · exact ⟨s, Nat.le_succ s.length, (List.cons.inj h).2.symm⟩

/-- A prompt at the start of an escaped text lies within it. -/
theorem escape_prompt {stop : List Char} (hstop : Stops stop) {s word rest : List Char}
    (hword : ∀ c ∈ word, isPromptChar c = true)
    (h : escape s ++ stop = word ++ '>' :: ' ' :: rest) :
    ∃ s', s'.length ≤ s.length ∧ rest = escape s' ++ stop := by
  induction s generalizing word with
  | nil => exact absurd h (hstop.noPrompt word rest hword)
  | cons c s ih =>
    have hlater : (∃ s', s'.length ≤ s.length ∧ rest = escape s' ++ stop) →
        ∃ s', s'.length ≤ (c :: s).length ∧ rest = escape s' ++ stop := by
      rintro ⟨s', hlen, hrest⟩
      exact ⟨s', Nat.le_succ_of_le hlen, hrest⟩
    rw [escape_cons, List.append_assoc] at h
    rcases escapeChar_cases c with ⟨e, he, hc, -⟩ | ⟨hc, -⟩ <;> rw [hc] at h
    · rcases word with _ | ⟨_, _ | ⟨_, word⟩⟩
      · cases (List.cons.inj h).1
      · have hmark : '>' ∉ ['\\', '\x22', 'n', 't', 'r'] := by decide
        have heq : e = '>' := (List.cons.inj (List.cons.inj h).2).1
        exact absurd (heq ▸ he) hmark
      · have hrest := (List.forall_mem_cons.mp (List.forall_mem_cons.mp hword).2).2
        exact hlater (ih hrest (List.cons.inj (List.cons.inj h).2).2)
    · cases word with
      | nil => exact hlater (escape_space hstop (List.cons.inj h).2)
      | cons _ word => exact hlater (ih (List.forall_mem_cons.mp hword).2 (List.cons.inj h).2)

theorem dropPrompt_escape {stop : List Char} (hstop : Stops stop) (s : List Char) :
    ∃ s', s'.length ≤ s.length ∧ dropPrompt (escape s ++ stop) = escape s' ++ stop := by
  rcases dropPrompt_cases (escape s ++ stop) with ⟨word, rest, hword, heq, hdrop⟩ | ⟨-, hdrop⟩
  · obtain ⟨s', hlen, hrest⟩ := escape_prompt hstop hword heq
    exact ⟨s', hlen, hdrop.trans hrest⟩
  · exact ⟨s, Nat.le_refl _, hdrop⟩

/-- Lines of an escaped text lose nothing but prompts within it. -/
theorem pruneRest_escape {stop : List Char} (hstop : Stops stop) (s : List Char) :
    ∃ s', pruneRest (escape s ++ stop) = escape s' ++ pruneRest stop := by
  induction hlength : s.length using Nat.strongRecOn generalizing s with
  | ind n ih =>
    subst hlength
    cases s with
    | nil => exact ⟨[], rfl⟩
    | cons c s =>
      have hgoes : (∀ d ∈ escapeChar c, endsLine d = false) →
          ∃ s', pruneRest (escape (c :: s) ++ stop) = escape s' ++ pruneRest stop := by
        intro h
        obtain ⟨s', hs'⟩ := ih s.length (Nat.lt_succ_self _) s rfl
        refine ⟨c :: s', ?_⟩
        rw [escape_cons, List.append_assoc, pruneRest_append h, hs', escape_cons,
          List.append_assoc]
      rcases escapeChar_cases c with ⟨e, he, hc, -⟩ | ⟨hc, -⟩
      · have hletters : ∀ e ∈ ['\\', '\x22', 'n', 't', 'r'], endsLine e = false := by decide
        refine hgoes (hc ▸ List.forall_mem_cons.mpr ⟨by decide, ?_⟩)
        exact List.forall_mem_singleton.mpr (hletters e he)
      cases hends : endsLine c with
      | false => exact hgoes (hc ▸ List.forall_mem_singleton.mpr hends)
      | true =>
        have hfeed : ¬ JoinsNext c (escape s ++ stop) := by
          rintro ⟨rfl, -⟩
          cases hc
        -- The line that begins here may lose a prompt, and is shorter than the text.
        obtain ⟨s₁, hlen, hdrop⟩ := dropPrompt_escape hstop s
        obtain ⟨s', hs'⟩ := ih s₁.length (Nat.lt_succ_of_le hlen) s₁ rfl
        refine ⟨c :: s', ?_⟩
        rw [escape_cons, escape_cons, hc]
        change pruneRest (c :: (escape s ++ stop)) = c :: (escape s' ++ pruneRest stop)
        rw [pruneRest_cons_of_ends hends hfeed, flatMap_dropPrompt_lines, hdrop, hs']

theorem pruneRest_writeText {stop : List Char} (hstop : Stops ('\x22' :: stop)) (s : List Char) :
    ∃ s', pruneRest (writeText s ++ stop) = writeText s' ++ pruneRest stop := by
  have hquote : ∀ c ∈ ['\x22'], endsLine c = false := by decide
  obtain ⟨s', hs'⟩ := pruneRest_escape hstop s
  refine ⟨s', ?_⟩
  calc
    _ = pruneRest (['\x22'] ++ (escape s ++ '\x22' :: stop)) := by simp [writeText]
    _ = ['\x22'] ++ (escape s' ++ pruneRest (['\x22'] ++ stop)) := by
      rw [pruneRest_append hquote, hs']
      rfl
    _ = _ := by
      rw [pruneRest_append hquote]
      simp [writeText]

end Printer

namespace Reply

open Command Printer

/-- The lines that a reply is sent as, up to the blank one. -/
def sent (r : Reply) : List (List Char) := lines (r.datum.write.toList ++ ['\n'])

/-- Values as they follow the name of a result. -/
def valuesChars (stop : List Char) : List String → List Char
  | [] => stop
  | text :: values => [' '] ++ (writeText text.toList ++ valuesChars stop values)

/-- What follows the values of a result. -/
def outputChars (output : String) : List Char :=
  [')', ' ', '('] ++ ("output".toList ++ [' ', '.', ' '] ++
    (writeText output.toList ++ [')', ')', '\n']))

theorem itemsChars_cons_map (x : Datum) (values : List String) (stop : List Char) :
    Node.itemsChars Empty.elim true (x :: values.map fun text => Datum.str text) ++ stop =
      Node.chars Empty.elim true x ++ valuesChars stop values := by
  induction values generalizing x with
  | nil =>
    change (Node.chars Empty.elim true x ++ []) ++ stop = _
    rw [List.append_nil]
    rfl
  | cons text values ih =>
    change (Node.chars Empty.elim true x ++ ' ' :: Node.itemsChars Empty.elim true
      (Datum.str text :: values.map fun text => Datum.str text)) ++ stop = _
    rw [List.append_assoc, List.cons_append, ih]
    rfl

theorem chars_output (items : List Datum) (output : String) :
    (Datum.list [Datum.list items, Datum.improper [.sym "output"]
      (Datum.str output)]).write.toList ++ ['\n'] =
      ['(', '('] ++ (Node.itemsChars Empty.elim true items ++ outputChars output) := by
  rw [Datum.write, String.toList_ofList]
  simp [Node.chars, Node.itemsChars, outputChars]

theorem chars_result (values : List String) (output : String) :
    (result values output).datum.write.toList ++ ['\n'] =
      ['(', '('] ++ ("result".toList ++ valuesChars (outputChars output) values) := by
  rw [datum, chars_output, itemsChars_cons_map, Node.chars]

theorem chars_error (message : String) :
    (error message).datum.write.toList ++ ['\n'] =
      "((error (key . ".toList ++ (writeText message.toList ++ ")))\n".toList) := by
  rw [Datum.write, String.toList_ofList]
  simp [datum, Node.chars, Node.itemsChars]

theorem stops_valuesChars (output : String) (values : List String) :
    Stops ('\x22' :: valuesChars (outputChars output) values) := by
  have hclose : ∀ c ∈ [')'], c ≠ '>' := by decide
  have hnone : ∀ c ∈ [], c ≠ '>' := List.forall_mem_nil _
  cases values with
  | nil => exact stops_quotation hclose (b := ' ') (by decide) _
  | cons text values => exact stops_quotation hnone (b := ' ') (by decide) _

theorem pruneRest_outputChars (output : String) :
    ∃ output', pruneRest (outputChars output) = outputChars output' := by
  have hopen : ∀ c ∈ [')', ' ', '('], endsLine c = false := by decide
  have hname : ∀ c ∈ "output".toList ++ [' ', '.', ' '], endsLine c = false := by decide
  have hmarks : ∀ c ∈ [')', ')'], c ≠ '>' := by decide
  have hstop : pruneRest [')', ')', '\n'] = [')', ')', '\n'] := rfl
  obtain ⟨cs, hcs⟩ := pruneRest_writeText (stops_quotation hmarks (b := '\n') (by decide) [])
    output.toList
  have hback : (String.ofList cs).toList = cs := String.toList_ofList
  refine ⟨String.ofList cs, ?_⟩
  rw [outputChars, outputChars, pruneRest_append hopen, pruneRest_append hname, hback]
  exact congrArg _ (congrArg _ (hcs.trans (congrArg _ hstop)))

theorem pruneRest_valuesChars (output : String) (values : List String) :
    ∃ output' values', pruneRest (valuesChars (outputChars output) values) =
      valuesChars (outputChars output') values' := by
  have hspace : ∀ c ∈ [' '], endsLine c = false := by decide
  induction values with
  | nil =>
    obtain ⟨output', h⟩ := pruneRest_outputChars output
    exact ⟨output', [], h⟩
  | cons text values ih =>
    obtain ⟨output', values', hvalues⟩ := ih
    obtain ⟨cs, hcs⟩ := pruneRest_writeText (stops_valuesChars output values) text.toList
    refine ⟨output', String.ofList cs :: values', ?_⟩
    rw [valuesChars, valuesChars, pruneRest_append hspace, hcs, hvalues, String.toList_ofList]

theorem noPrompt_valuesChars (output : String) (values : List String) :
    NoPrompt (['(', '('] ++ ("result".toList ++ valuesChars (outputChars output) values)) := by
  have hname : ∀ c ∈ ['(', '('] ++ "result".toList, c ≠ '>' := by decide
  have hclose : ∀ c ∈ ['(', '('] ++ "result".toList ++ [')'], c ≠ '>' := by decide
  have hspace : isBlank ' ' = true := by decide
  rw [← List.append_assoc]
  cases values with
  | nil =>
    have hno := noPrompt_of_blank hclose hspace
      ('(' :: ("output".toList ++ [' ', '.', ' '] ++ (writeText output.toList ++ [')', ')', '\n'])))
    rwa [List.append_assoc] at hno
  | cons text values =>
    exact noPrompt_of_blank hname hspace (writeText text.toList ++ valuesChars _ values)

theorem noPrompt_chars (r : Reply) : NoPrompt (r.datum.write.toList ++ ['\n']) := by
  cases r with
  | result values output =>
    rw [chars_result]
    exact noPrompt_valuesChars output values
  | error message =>
    have hname : ∀ c ∈ "((error".toList, c ≠ '>' := by decide
    rw [chars_error]
    exact noPrompt_of_blank hname (b := ' ') (by decide)
      ("(key . ".toList ++ (writeText message.toList ++ ")))\n".toList))

/-- What arrives is a reply again: prompts can only be lost in its texts. -/
theorem flatMap_dropPrompt_sent (r : Reply) :
    ∃ r' : Reply, r.sent.flatMap dropPrompt = r'.datum.write.toList ++ ['\n'] := by
  rw [sent, flatMap_dropPrompt_lines, dropPrompt_of_noPrompt r.noPrompt_chars]
  cases r with
  | result values output =>
    have hopen : ∀ c ∈ ['(', '('], endsLine c = false := by decide
    have hname : ∀ c ∈ "result".toList, endsLine c = false := by decide
    obtain ⟨output', values', h⟩ := pruneRest_valuesChars output values
    refine ⟨.result values' output', ?_⟩
    rw [chars_result, chars_result, pruneRest_append hopen, pruneRest_append hname, h]
  | error message =>
    have hname : ∀ c ∈ "((error (key . ".toList, endsLine c = false := by decide
    have hmarks : ∀ c ∈ [')', ')', ')'], c ≠ '>' := by decide
    obtain ⟨cs, hcs⟩ := pruneRest_writeText (stops_quotation hmarks (b := '\n') (by decide) [])
      message.toList
    have hstop : pruneRest [')', ')', ')', '\n'] = [')', ')', ')', '\n'] := rfl
    have hback : (String.ofList cs).toList = cs := String.toList_ofList
    refine ⟨.error (String.ofList cs), ?_⟩
    rw [chars_error, chars_error, pruneRest_append hname, hback]
    exact congrArg _ (hcs.trans (congrArg _ hstop))

theorem chars_eq_cons (r : Reply) :
    ∃ body, r.datum.write.toList = '(' :: (body ++ [')']) := by
  cases r <;> exact ⟨_, String.toList_ofList⟩

theorem ne_nil_of_mem_sent (r : Reply) : ∀ line ∈ r.sent, line ≠ [] := ne_nil_of_mem_lines

theorem flatten_sent (r : Reply) : r.sent.flatten = r.datum.write.toList ++ ['\n'] :=
  flatten_lines _

/-- No blank line comes first. -/
theorem sent_eq_cons (r : Reply) : ∃ line rest, r.sent = line :: rest ∧ Dialogue.Carries line := by
  obtain ⟨body, hbody⟩ := r.chars_eq_cons
  have hopen : isBlank '(' = false := by decide
  have hno := r.noPrompt_chars
  cases hs : r.sent with
  | nil =>
    have hflat := r.flatten_sent
    rw [hs] at hflat
    simp at hflat
  | cons line rest =>
    refine ⟨line, rest, rfl, r.ne_nil_of_mem_sent line (hs ▸ List.mem_cons_self), ?_⟩
    have hflat := r.flatten_sent
    rw [hs, List.flatten_cons] at hflat
    rw [← hflat] at hno
    rw [dropPrompt_of_noPrompt hno.of_append]
    cases line with
    | nil => exact absurd rfl (r.ne_nil_of_mem_sent [] (hs ▸ List.mem_cons_self))
    | cons c line =>
      rw [hbody] at hflat
      cases (List.cons.inj hflat).1
      simp [allBlank, hopen]

/-- The last line ends with a bracket. -/
theorem sent_eq_append (r : Reply) : ∃ front line, r.sent = front ++ [line ++ [')', '\n']] := by
  obtain ⟨body, hbody⟩ := r.chars_eq_cons
  obtain ⟨front, line, h⟩ := lines_append_end (c := ')') (by decide) ('(' :: body)
  refine ⟨front, line, ?_⟩
  rw [sent, hbody, ← h]
  simp

/-- The lines that a server writes for a reply. -/
theorem lines_reply (r : Reply) : lines (r.datum.write ++ "\n\n").toList = r.sent ++ [['\n']] := by
  rw [String.toList_append]
  exact lines_append_feed r.datum.write.toList ['\n']

/-- A reply that arrives as it was sent: every line of it has something on it, and none begins with
a prompt. -/
def IsFramed (r : Reply) : Prop := ∀ line ∈ r.sent, allBlank line = false ∧ dropPrompt line = line

instance (r : Reply) : Decidable r.IsFramed := inferInstanceAs (Decidable (∀ line ∈ _, _))

example : ¬ (result ["1"] "\x0b\x0b").IsFramed := by decide +kernel

theorem IsFramed.carries {r : Reply} (h : r.IsFramed) : ∀ line ∈ r.sent, Dialogue.Carries line :=
  fun line hline => ⟨r.ne_nil_of_mem_sent line hline, by rw [(h line hline).2, (h line hline).1]⟩

theorem IsFramed.flatMap_dropPrompt {r : Reply} (h : r.IsFramed) :
    r.sent.flatMap dropPrompt = r.datum.write.toList ++ ['\n'] := by
  rw [← r.flatten_sent, List.flatMap_def, List.map_congr_left fun line hline => (h line hline).2,
    List.map_id']

end Reply

namespace Dialogue

open Command

/-- Nothing but blank lines. -/
def Quiet (ls : List (List Char)) : Prop := ∀ line ∈ ls, line ≠ [] ∧ allBlank line = true

theorem Quiet.separates {ls : List (List Char)} (h : Quiet ls) : ∀ line ∈ ls, Separates line := by
  intro line hline
  obtain ⟨hne, hblank⟩ := h line hline
  refine ⟨hne, List.all_eq_true.mpr fun c hc => ?_⟩
  exact List.all_eq_true.mp hblank c ((dropPrompt_suffix line).subset hc)

theorem dropEnd_sent (r : Reply) :
    String.ofList (dropEnd (· == '\n') (r.datum.write.toList ++ ['\n'])) = r.datum.write := by
  obtain ⟨body, hbody⟩ := r.chars_eq_cons
  have hdrop : dropEnd (· == '\n') (r.datum.write.toList ++ ['\n']) = r.datum.write.toList := by
    rw [hbody]
    simp [dropEnd]
  rw [hdrop, String.ofList_toList]

/-- The last line of a reply is not blank, so it is part of what stays behind a blank line. -/
theorem not_quiet_of_sent {r : Reply} {front rest : List (List Char)} {line : List Char}
    (h : r.sent = front ++ line :: rest) (hline : Separates line) : ¬ Quiet rest := by
  intro hquiet
  obtain ⟨before, last, hlast⟩ := r.sent_eq_append
  have hclose : isBlank ')' = false := by decide
  have hsplit := h.symm.trans hlast
  rcases List.eq_nil_or_concat rest with rfl | ⟨more, final, rfl⟩
  · obtain ⟨-, heq⟩ := List.append_inj' hsplit rfl
    rw [(List.cons.inj heq).1] at hline
    have hblank := hline.2
    rw [allBlank_dropPrompt_end] at hblank
    cases hblank
  · rw [List.concat_eq_append, ← List.cons_append, ← List.append_assoc] at hsplit
    obtain ⟨-, heq⟩ := List.append_inj' hsplit rfl
    have hblank := (hquiet final (by simp)).2
    rw [(List.cons.inj heq).1] at hblank
    simp [allBlank, hclose] at hblank

/-- A reply is read as it was sent, or as another reply, or it ends early and leaves a rest. -/
theorem readReply_sent {t : Transport} (h : t.CanRead) {front : List (List Char)} {r : Reply}
    (hl : t.lines = front ++ (r.sent ++ [['\n']])) (hf : Quiet front) :
    (∃ r' : Reply, readReply t = .ok r'.datum.write (t.withLines []) ∧ (r' = r ↔ r.IsFramed)) ∨
      ∃ text rest, readReply t = .ok text (t.withLines rest) ∧ ¬ Quiet rest ∧ ¬ r.IsFramed := by
  have hfeed : Separates ['\n'] := ⟨by simp, by decide⟩
  rcases forall_carries_or r.ne_nil_of_mem_sent with hall | ⟨ls, line, rest, hs, hls, hline⟩
  · obtain ⟨r', hr'⟩ := r.flatMap_dropPrompt_sent
    have hne : r.sent ≠ [] := by
      obtain ⟨line, rest, hs, -⟩ := r.sent_eq_cons
      rw [hs]
      exact List.cons_ne_nil line rest
    have hread := readReply_ok h hl hf.separates hne hall hfeed
    rw [hr', dropEnd_sent] at hread
    refine .inl ⟨r', hread, ?_, ?_⟩
    · rintro rfl line hline
      have hkept := dropPrompt_eq_of_flatMap (hr'.trans r'.flatten_sent.symm) line hline
      exact ⟨hkept ▸ (hall line hline).2, hkept⟩
    · intro hframed
      rw [hframed.flatMap_dropPrompt] at hr'
      exact Reply.write_injective (String.toList_inj.mp (List.append_cancel_right hr')).symm
  · have hne : ls ≠ [] := by
      rintro rfl
      obtain ⟨first, more, hfirst, hcarries⟩ := r.sent_eq_cons
      rw [hs] at hfirst
      rw [← (List.cons.inj hfirst).1] at hcarries
      exact Bool.false_ne_true (hcarries.2.symm.trans hline.2)
    have hl' : t.lines = front ++ (ls ++ line :: (rest ++ [['\n']])) := by
      rw [hl, hs]
      simp
    refine .inr ⟨_, _, readReply_ok h hl' hf.separates hne hls hline, ?_, ?_⟩
    · exact fun hq => not_quiet_of_sent hs hline fun line hmem => hq line (by simp [hmem])
    · intro hframed
      have hcarries := hframed.carries line (by rw [hs]; simp)
      exact Bool.false_ne_true (hcarries.2.symm.trans hline.2)

end Dialogue

end LiveScheme
