import LiveScheme.Editor.Session
import LiveScheme.Proofs.Editor.Spelling

/-!
# Texts inside requests

File names, names and beginnings of names come from the user, and a session puts them into its
requests between quotation marks. No such text can end its quotation: every request is one line that
reads as one call, and the strings in the call are the texts themselves. The session escapes fewer
characters than the printer does, and what both write is read as the same text.
-/

namespace LiveScheme

open Text

namespace Command

/-- A text on one line that is read as the datum. -/
structure Phrases (text : String) (d : Datum) : Prop where
  spells : Spells text.toList d
  oneLine : '\n' ∉ text.toList

namespace Phrases

theorem readAll_append {text : String} {d : Datum} (h : Phrases text d) {blanks : List Char}
    (hb : ∀ c ∈ blanks, isBlank c = true) :
    Datum.readAll (text ++ String.ofList blanks) = .ok [d] := by
  have hread := h.spells.readAll hb
  rwa [String.ofList_append, String.ofList_toList] at hread

theorem readAll {text : String} {d : Datum} (h : Phrases text d) :
    Datum.readAll text = .ok [d] := by
  have hread := h.readAll_append (List.forall_mem_nil _)
  rwa [String.ofList_nil, String.append_empty] at hread

theorem of_readable {d : Datum} (h : d.Readable) : Phrases d.write d where
  spells := by
    rw [Datum.write, String.toList_ofList]
    exact .of_readable h
  oneLine hmem := by
    rw [Datum.write, String.toList_ofList] at hmem
    exact (Datum.isInline_chars h.lexical _ hmem).1 rfl

theorem quoted {text : String} {d : Datum} (h : Phrases text d) :
    Phrases ("'" ++ text) d.quoted where
  spells := by
    rw [String.toList_append]
    exact h.spells.quoted
  oneLine hmem := by
    rw [String.toList_append, List.mem_append] at hmem
    exact hmem.elim (by decide) h.oneLine

theorem quotation (text : String) : Phrases (quoteText text) (.str text) where
  spells := spells_quoteText text
  oneLine hmem := by
    have hescape : ∀ c, '\n' ∉ escapeChar c := by
      intro c hc
      unfold escapeChar at hc
      split at hc
      · simp at hc
      split at hc
      · simp at hc
      split at hc
      · simp at hc
      · next hfeed => exact hfeed (List.mem_singleton.mp hc).symm
    rw [quoteText, String.toList_ofList, List.mem_append, List.mem_cons, List.mem_flatMap] at hmem
    obtain (hquote | ⟨c, -, hc⟩) | hquote := hmem
    · cases hquote
    · exact hescape c hc
    · cases List.mem_singleton.mp hquote

theorem not_mem_intercalate {c : Char} {between : List Char} {ws : List (List Char)}
    (hbetween : c ∉ between) (h : ∀ w ∈ ws, c ∉ w) : c ∉ between.intercalate ws := by
  induction ws with
  | nil => exact List.not_mem_nil
  | cons w rest ih =>
    obtain ⟨hw, hrest⟩ := List.forall_mem_cons.mp h
    cases rest with
    | nil => rwa [List.intercalate_singleton]
    | cons v rest =>
      rw [List.intercalate_cons_cons, List.append_assoc]
      simp only [List.mem_append, not_or]
      exact ⟨hw, hbetween, ih hrest⟩

/-- Phrases with blanks between them, in brackets. -/
theorem list (parts : List (String × Datum)) (h : ∀ p ∈ parts, Phrases p.1 p.2) :
    Phrases ("(" ++ " ".intercalate (parts.map Prod.fst) ++ ")") (.list (parts.map Prod.snd)) := by
  have htext : ("(" ++ " ".intercalate (parts.map Prod.fst) ++ ")").toList =
      '(' :: [' '].intercalate (parts.map fun p => p.1.toList) ++ [')'] := by
    simp [String.toList_intercalate, List.map_map, Function.comp_def]
  refine ⟨?_, ?_⟩ <;> rw [htext]
  · have hparts : ∀ p ∈ parts.map fun p => (p.1.toList, p.2), Spells p.1 p.2 :=
      List.forall_mem_map.mpr fun p hp => (h p hp).spells
    simpa only [List.map_map, Function.comp_def] using Spells.list _ hparts
  · have hitems : '\n' ∉ [' '].intercalate (parts.map fun p => p.1.toList) :=
      not_mem_intercalate (by decide) (List.forall_mem_map.mpr fun p hp => (h p hp).oneLine)
    simpa using hitems

end Phrases

/-- The text of a call of a service is a list. -/
theorem plainText_eq (verb : String) (args : List String) :
    plainText verb (args.map some) =
      "(" ++ " ".intercalate (("geiser:" ++ verb) :: args) ++ ")" := by
  have hargs : ∀ head : String, " ".intercalate (head :: args) =
      head ++ String.join (args.map (" " ++ ·)) := by
    induction args with
    | nil =>
      intro head
      rw [String.intercalate_singleton, List.map_nil, String.join_nil, String.append_empty]
    | cons arg rest ih =>
      intro head
      rw [String.intercalate_cons_cons, ih, List.map_cons, String.join_cons]
      simp only [String.append_assoc]
  have hsome : (args.map some).filterMap id = args := by simp
  rw [plainText, hsome, hargs, ← String.append_assoc]
  rfl

theorem phrases_sym {name : String} (h : ReadableName name) : Phrases name (.sym name) := by
  have hphrases := Phrases.of_readable (.sym name h)
  rwa [Datum.write, Node.chars, String.ofList_toList] at hphrases

theorem plainText_single {verb front : String} (h : front = "(geiser:" ++ verb ++ " ")
    (text : String) : plainText verb [some text] = front ++ text ++ ")" := by
  rw [h]
  simp [plainText, String.append_assoc]

/-- A call of a service on phrases. -/
theorem phrases_plainText {verb : String} (hverb : ReadableName ("geiser:" ++ verb))
    (args : List (String × Datum)) (h : ∀ p ∈ args, Phrases p.1 p.2) :
    Phrases (plainText verb (args.map fun p => some p.1))
      (.list (.sym ("geiser:" ++ verb) :: args.map Prod.snd)) := by
  have hcall := Phrases.list (("geiser:" ++ verb, .sym ("geiser:" ++ verb)) :: args)
    (List.forall_mem_cons.mpr ⟨phrases_sym hverb, h⟩)
  have htext := plainText_eq verb (args.map Prod.fst)
  rw [List.map_map] at htext
  exact htext ▸ hcall

/-- The services that are called on texts of the user. -/
def askedServices : List String := [
  "load-file", "add-to-load-path", "module-completions", "completions", "symbol-documentation",
  "autodoc", "eval"]

theorem readableName_service (verb : String) (h : verb ∈ askedServices) :
    ReadableName ("geiser:" ++ verb) := by
  revert verb
  decide

/-- A call of a service on one text. -/
theorem phrases_service (verb : String) (h : verb ∈ askedServices) (text : String) :
    Phrases (plainText verb [some (quoteText text)])
      (.list [.sym ("geiser:" ++ verb), .str text]) :=
  phrases_plainText (readableName_service verb h) [(quoteText text, .str text)]
    (List.forall_mem_singleton.mpr (.quotation text))

theorem expression_plainText {verb : String}
    (h : verb ∈ ["add-to-load-path", "module-completions", "symbol-documentation"])
    (args : List (Option String)) : expression ⟨verb, args⟩ none = .ok (plainText verb args) := by
  simp only [List.mem_cons, List.not_mem_nil, or_false] at h
  rcases h with rfl | rfl | rfl <;> simp [expression, unsupported]

/-- A request to evaluate a phrase in the current module. -/
theorem phrases_eval {form : String} {d : Datum} (h : Phrases form d) :
    ∃ text, evalText none (some form) = .ok text ∧ Phrases text (evalDatum none d) := by
  have hfalse : Phrases "#f" (.bool false) := .of_readable (.bool false trivial)
  have hcall := phrases_plainText (readableName_service "eval" (by decide))
    [("#f", .bool false), ("'" ++ form, d.quoted)]
    (List.forall_mem_cons.mpr ⟨hfalse, List.forall_mem_singleton.mpr h.quoted⟩)
  have htext : evalText none (some form) =
      .ok (plainText "eval" [some "#f", some ("'" ++ form)]) := by
    refine congrArg Except.ok (String.toList_inj.mp ?_)
    simp [plainText, formText]
  exact ⟨_, htext, hcall⟩

/-- A request about names. -/
theorem phrases_autodoc (names : List String) : ∃ text,
    expression ⟨"autodoc", names.map fun name => some (quoteText name)⟩ none = .ok text ∧
      Phrases text (autodocDatum names) := by
  have hnames := Phrases.list (names.map fun name => (quoteText name, Datum.str name))
    (List.forall_mem_map.mpr fun name _ => .quotation name)
  have hhome : Phrases "(current-module)" (.list [.sym "current-module"]) :=
    Phrases.list [("current-module", .sym "current-module")]
      (List.forall_mem_singleton.mpr (phrases_sym (readableName_call (by simp))))
  have hcall := phrases_plainText (readableName_service "autodoc" (by decide)) [(_, _), (_, _)]
    (List.forall_mem_cons.mpr ⟨hnames.quoted, List.forall_mem_singleton.mpr hhome⟩)
  simp only [List.map_map, Function.comp_def] at hcall
  refine ⟨_, ?_, hcall⟩
  rw [expression_autodoc]
  refine congrArg Except.ok (String.toList_inj.mp ?_)
  simp [plainText, String.toList_intercalate]

end Command

/-- A request that carries texts of the user. -/
inductive Inquiry
  | loadFile (name : String)
  | compileFile (name : String)
  | addToLoadPath (directory : String)
  | moduleCompletions (stem : String)
  | completions (stem : String)
  | symbolDocumentation (name : String)
  | autodoc (names : List String)

namespace Inquiry

open Command

/-- The form that asks for the completions of a text. -/
def completionsForm (stem : String) : String := "(geiser:completions " ++ quoteText stem ++ ")"

theorem phrases_completionsForm (stem : String) :
    Phrases (completionsForm stem) (.list [.sym "geiser:completions", .str stem]) := by
  have htext : plainText "completions" [some (quoteText stem)] = completionsForm stem :=
    plainText_single (by decide) _
  exact htext ▸ phrases_service "completions" (by decide) stem

def command : Inquiry → Command
  | loadFile name => ⟨"load-file", [some name]⟩
  | compileFile name => ⟨"compile-file", [some name]⟩
  | addToLoadPath directory => ⟨"add-to-load-path", [some (quoteText directory)]⟩
  | moduleCompletions stem => ⟨"module-completions", [some (quoteText stem)]⟩
  | completions stem => ⟨"eval", [none, some (completionsForm stem)]⟩
  | symbolDocumentation name => ⟨"symbol-documentation", [some (quoteText name)]⟩
  | autodoc names => ⟨"autodoc", names.map fun name => some (quoteText name)⟩

/-- The call that a request is to be read as. -/
def datum : Inquiry → Datum
  | loadFile name | compileFile name => .list [.sym "geiser:load-file", .str name]
  | addToLoadPath directory => .list [.sym "geiser:add-to-load-path", .str directory]
  | moduleCompletions stem => .list [.sym "geiser:module-completions", .str stem]
  | completions stem => evalDatum none (.list [.sym "geiser:completions", .str stem])
  | symbolDocumentation name => .list [.sym "geiser:symbol-documentation", .str name]
  | autodoc names => autodocDatum names

open Dialogue in
/-- The text is what a session sends for the request, and all that it sends. -/
def SentAs (q : Inquiry) (text : String) : Prop :=
  ∀ g : Engine, match q with
    | loadFile name => Session.loadFile g name =
        do ofDecoded (Decode.evalReply (← request g text))
    | compileFile name => Dialogue.command g "compile-file" [some name] none = request g text
    | addToLoadPath directory => Session.addToLoadPath g directory =
        do ofDecoded (Decode.evalReply (← request g text))
    | moduleCompletions stem => Session.moduleCompletions g stem =
        do ofDecoded (Decode.strings (← request g text))
    | completions stem => Session.completions g stem = do
        match ← onProtocolError (do ofDecoded (Decode.evalReply (← request g text)))
          fun e => return .error e.message with
        | .error _ => return []
        | reply => ofDecoded (Decode.strings reply.value)
    | symbolDocumentation name => Session.symbolDocumentation g name none =
        do ofDecoded (Decode.symbolDocumentation (← request g text))
    | autodoc names => Session.autodoc g names none =
        do ofDecoded (Decode.autodoc (← request g text))

theorem sentAs {q : Inquiry} {text : String} (h : q.command.expression none = .ok text) :
    q.SentAs text := by
  intro g
  have hcommand : Dialogue.command g q.command.verb q.command.args none =
      Dialogue.request g text := by
    rw [Dialogue.command, h]
    rfl
  cases q with
  | loadFile name => exact congrArg (· >>= _) hcommand
  | compileFile name => exact hcommand
  | addToLoadPath directory => exact congrArg (· >>= _) hcommand
  | moduleCompletions stem => exact congrArg (· >>= _) hcommand
  | completions stem =>
    exact congrArg (fun x => Dialogue.onProtocolError (x >>= _) _ >>= _) hcommand
  | symbolDocumentation name =>
    exact congrArg (· >>= fun reply =>
      Dialogue.ofDecoded (Decode.symbolDocumentation reply)) hcommand
  | autodoc names => exact congrArg (· >>= _) hcommand

theorem phrases (q : Inquiry) :
    ∃ text, q.command.expression none = .ok text ∧ Phrases text q.datum := by
  have hload : ∀ name : String, Phrases ("(geiser:load-file " ++ quoteText name ++ ")")
      (.list [.sym "geiser:load-file", .str name]) := fun name => by
    have htext : plainText "load-file" [some (quoteText name)] =
        "(geiser:load-file " ++ quoteText name ++ ")" := plainText_single (by decide) _
    exact htext ▸ phrases_service "load-file" (by decide) name
  cases q with
  | loadFile name => exact ⟨_, rfl, hload name⟩
  | compileFile name => exact ⟨_, rfl, hload name⟩
  | addToLoadPath directory =>
    exact ⟨_, expression_plainText (by decide) _,
      phrases_service "add-to-load-path" (by decide) directory⟩
  | moduleCompletions stem =>
    exact ⟨_, expression_plainText (by decide) _,
      phrases_service "module-completions" (by decide) stem⟩
  | completions stem => exact phrases_eval (phrases_completionsForm stem)
  | symbolDocumentation name =>
    exact ⟨_, expression_plainText (by decide) _,
      phrases_service "symbol-documentation" (by decide) name⟩
  | autodoc names => exact phrases_autodoc names

end Inquiry

/-- Every request that carries texts of the user is sent as one line, which is read as the call on
these texts and nothing else. A text between quotation marks is read as itself, as the session and
as the printer write it. -/
theorem Inquiry.reads_as_datum :
    (∀ q : Inquiry, ∃ text, q.command.expression none = .ok text ∧ q.SentAs text ∧
      Datum.readAll text = .ok [q.datum] ∧ '\n' ∉ text.toList) ∧
    ∀ text : String, Datum.readOne (Command.quoteText text) = .ok (.str text) ∧
      Datum.readOne (Datum.str text).write = .ok (.str text) := by
  refine ⟨fun q => ?_, fun text => ⟨?_, ?_⟩⟩
  · obtain ⟨text, htext, hphrases⟩ := q.phrases
    exact ⟨text, htext, sentAs htext, hphrases.readAll, hphrases.oneLine⟩
  · exact Datum.readOne_of_readAll (Command.Phrases.quotation text).readAll
  · have hread : (Datum.str text).Readable := .str text trivial
    exact Datum.readOne_of_readAll hread.readsBack.readAll

end LiveScheme
