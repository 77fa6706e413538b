import LiveScheme.Proofs.Editor.Autodoc
import LiveScheme.Proofs.Introspection.Visible
import LiveScheme.Proofs.Reading.Names

/-!
# Completion

A session that asks a server of its own process how a name may go on gets every name that begins so
and that the current module sees, each once and in the order of code points, whatever the beginning
is. The beginning is a text inside the request. The names are texts in a list whose text is in turn
a text of the reply; as no name that was read has a blank in it, the reply goes into one line.
-/

namespace LiveScheme

open Text

namespace Datum

/-- A name in what some text was read as. -/
def WasRead (name : String) : Prop :=
  ∃ source forms, readAll source = .ok forms ∧ name ∈ namesOf forms

theorem WasRead.of_readable {name : String} (h : ReadableName name) : WasRead name := by
  have hread : Readable (.sym name) := .sym name h
  exact ⟨_, _, hread.readsBack.readAll, by simp [namesOf, names]⟩

/-- No line ends in a name that was read. -/
theorem WasRead.endsLine_eq_false {name : String} (h : WasRead name) :
    ∀ c ∈ name.toList, endsLine c = false := by
  obtain ⟨source, forms, hread, hname⟩ := h
  obtain ⟨d, hd, hname⟩ := mem_namesOf.mp hname
  rcases (readName_of_readAll hread hd hname).isWord with hword | rfl
  · exact fun c hc => endsLine_of_not_isBlank (Token.isBlank_of_isWordChar (hword.chars c hc))
  · decide

/-- A list of texts. -/
def ofTexts (texts : List String) : Datum := .list (texts.map fun text => .str text)

theorem readable_ofTexts (texts : List String) : (ofTexts texts).Readable := by
  refine .list _ fun d hd => ?_
  obtain ⟨text, -, rfl⟩ := List.mem_map.mp hd
  exact .str text trivial

/-- An escape ends no line. -/
theorem endsLine_letters : ∀ e ∈ ['\\', '\x22', 'n', 't', 'r'], endsLine e = false := by decide

theorem endsLine_ofTexts {texts : List String}
    (h : ∀ text ∈ texts, ∀ c ∈ text.toList, endsLine c = false) :
    ∀ c ∈ (ofTexts texts).write.toList, endsLine c = false := by
  have hitems : ∀ c ∈ Node.itemsChars Empty.elim true (texts.map fun text => Datum.str text),
      endsLine c = false := by
    refine Node.forall_itemsChars (by decide) fun d hd => ?_
    obtain ⟨text, htext, rfl⟩ := List.mem_map.mp hd
    exact Printer.forall_writeText endsLine_letters fun c hc _ => h text htext c hc
  have hclose : ∀ c ∈ [')'], endsLine c = false := by decide
  rw [ofTexts, write, String.toList_ofList, Node.chars, List.cons_append]
  exact List.forall_mem_cons.mpr ⟨by decide, List.forall_mem_append.mpr ⟨hitems, hclose⟩⟩

end Datum

/-- An editor makes of a list of texts what they are. -/
theorem Decode.strings_write (texts : List String) :
    Decode.strings (Datum.ofTexts texts).write = .ok texts := by
  have hall : (texts.map fun text => Datum.str text).all isText = true := by
    simp [isText, Node.text?]
  have hlabels : (texts.map fun text => Datum.str text).map Datum.label = texts := by
    simp [Function.comp_def, label_str]
  rw [strings, parse_write (Datum.readable_ofTexts texts), pure_bind]
  change (if (texts.map fun text => Datum.str text).all isText = true then
    (return (texts.map fun text => Datum.str text).map Datum.label : Decoded (List String))
    else _) = _
  rw [if_pos hall, hlabels]
  rfl

namespace Machine

/-- What a request for completions calls is resolved as it was installed: evaluation and quotation
in the current module, completion in the one that is evaluated in by default. -/
structure ServesCompletions (m : Machine) : Prop where
  eval : m.ServesEval
  service : ∃ connection,
    m.ResolvesIn defaultId "geiser:completions" (.service connection .completions)

end Machine

theorem Service.newTexts_ok (objectText : Object → Option String) (texts : List String)
    (m : Machine) : ∃ vs k, newTexts texts m = .ok vs { m with nextTag := k } ∧
      vs.map (·.datum objectText) = texts.map fun text => .str text :=
  Run.makes_each newTexts rfl (fun _ _ => rfl) Run.makes_newText texts m

/-- A call of the service makes a list of the completions. -/
theorem Engine.eval_completions {n id connection : Nat} {m : Machine}
    (hm : m.ResolvesIn id "geiser:completions" (.service connection .completions)) (stem : String)
    (tag tag' : Identity) :
    ∃ v k, (ofAllowance (n + 2)).eval (.list tag [.sym "geiser:completions", .str tag' stem])
        (.ofModule id) m = .ok v { m with nextTag := k } ∧
      v.datum m.objectText = Datum.ofTexts (Introspection.completions m stem) := by
  have hargs : (ofAllowance (n + 1)).evalAll (.ofModule id) [.str tag' stem] m =
      .ok [.str tag' stem] m := rfl
  have hcount : Service.completions.count 1 1 [.str tag' stem] m = .ok () m := rfl
  have hstem : Service.completions.textArg (.str tag' stem) m = .ok stem m := rfl
  have hget : (get : Run Machine) m = .ok m m := rfl
  obtain ⟨vs, k, hvs, hds⟩ :=
    Service.newTexts_ok m.objectText (Introspection.completions m stem) m
  obtain ⟨v, l, hv, hd⟩ := Run.makes_newList hds { m with nextTag := k }
  refine ⟨v, l, eval_primitive hm tag hargs ?_, hd⟩
  unfold Primitive.call Service.call
  dsimp only [List.headD_cons]
  rw [bind_of_ok hcount, bind_of_ok hstem, bind_of_ok hget, bind_of_ok hvs]
  exact hv

namespace Command

/-- The service that evaluates replies with the list of the completions, and nothing is printed. -/
theorem evalReply_completions {n connection : Nat} {m : Machine}
    (hm : m.ResolvesIn Machine.defaultId "geiser:completions" (.service connection .completions))
    (stem : String) :
    ∃ m', evalReply (Engine.ofAllowance (n + 2)) none
        (.list [.sym "geiser:completions", .str stem]) m =
      .ok (.result [(Datum.ofTexts (Introspection.completions m stem)).write] "") m' := by
  -- four identities are taken: for the text, the call, its quotation and the request itself
  let call : Value := .list (.fresh (m.nextTag + 1))
    [.sym "geiser:completions", .str (.fresh m.nextTag) stem]
  let m₁ : Machine := { m with nextTag := m.nextTag + 4 }
  have hhome : Run.ofDatum (homeDatum none) m = .ok (.bool false) m := rfl
  have hform : Run.ofDatum (Datum.list [.sym "geiser:completions", .str stem]).quoted m =
      .ok (.list (.fresh (m.nextTag + 2)) [.sym "quote", call])
        { m with nextTag := m.nextTag + 3 } := rfl
  have hget : (get : Run Machine) m₁ = .ok m₁ m₁ := rfl
  have hresolves : m₁.beginCapture.ResolvesIn Machine.defaultId "geiser:completions"
      (.service connection .completions) := hm.congr rfl rfl
  have hcompletions : Introspection.completions m₁.beginCapture stem =
      Introspection.completions m stem := Introspection.completions_congr rfl rfl stem
  obtain ⟨v, k, hv, hd⟩ := Engine.eval_completions (n := n) hresolves stem
    (.fresh (m.nextTag + 1)) (.fresh m.nextTag)
  obtain ⟨tag, items, rfl⟩ := Node.eq_list_of_datum hd
  have hwrite : m.write (.list tag items) =
      (Datum.ofTexts (Introspection.completions m stem)).write := by
    rw [m.write_eq, ← hcompletions]
    exact congrArg Datum.write hd
  have hservice : Service.evalReply (Engine.ofAllowance (n + 2)) (.bool false) call m₁ =
      .ok (.result [m.write (.list tag items)] "") { m₁ with nextTag := k } := by
    unfold Service.evalReply
    rw [bind_of_ok hget]
    exact Reply.capture_of_ok hv
  refine ⟨{ m₁ with nextTag := k }, ?_⟩
  rw [← hwrite, ← hservice]
  unfold evalReply
  rw [bind_of_ok hhome, bind_of_ok hform]
  rfl

end Command

namespace Reply

open Command

theorem chars_single (text : String) : (result [text] "").datum.write.toList =
    "((result ".toList ++ (Printer.writeText text.toList ++ ") (output . \x22\x22))".toList) := by
  rw [Datum.write, String.toList_ofList]
  simp [datum, Node.chars, Node.itemsChars, Printer.writeText, Printer.escape]

/-- A reply with one value on one line arrives as it was sent. -/
theorem framed_single {text : String} (h : ∀ c ∈ text.toList, endsLine c = false) :
    Dialogue.Framed (result [text] "").datum.write := by
  have hfront : ∀ c ∈ "((result ".toList, endsLine c = false := by decide
  have hback : ∀ c ∈ ") (output . \x22\x22))".toList, endsLine c = false := by decide
  have hline : Dialogue.OnOneLine (result [text] "").datum.write := by
    rw [Dialogue.OnOneLine, chars_single]
    refine List.forall_mem_append.mpr ⟨hfront, List.forall_mem_append.mpr ⟨?_, hback⟩⟩
    exact Printer.forall_writeText Datum.endsLine_letters fun c hc _ => h c hc
  obtain ⟨body, hbody⟩ := chars_eq_cons (result [text] "")
  exact (Dialogue.framed_iff_noPrompt hline (by decide) hbody).mpr (noPrompt_chars _)

end Reply

namespace Session

open Command Dialogue

/-- The value of a phrase in the default module, when the reply arrives as it was sent. -/
theorem eval_phrase {n : Nat} {server opened : Repl} (hr : server.Reachable)
    (hpending : server.pending = "") (hconnect : Repl.connect server = .ok () opened)
    {form : String} {d : Datum} (h : Phrases form d) {rep : Reply}
    (hrep : opened.Replies n none d rep) (hframed : Framed rep.datum.write)
    {queue : List (List Char)} (hqueue : Quiet queue) :
    ∃ server', server'.Reachable ∧ server'.pending = "" ∧
      eval (Engine.ofAllowance (n + 2)) (some form) none (.loopback server queue) =
        .ok rep.decoded (.loopback server' []) := by
  obtain ⟨text, htext, hphrases⟩ := phrases_eval h
  have hfeed : ∀ c ∈ ['\n'], isBlank c = true := by decide
  obtain ⟨server', hhandle, hempty⟩ :=
    Repl.handle_replied hr hpending hconnect (hphrases.readAll_append hfeed) hrep
  obtain ⟨body, hbody⟩ := rep.chars_eq_cons
  have hcan : (Transport.loopback server'
      (queue ++ lines (rep.datum.write ++ "\n\n").toList)).CanRead := trivial
  have hbrackets : rep.datum.write.toList = ('(' :: body) ++ [')'] := hbody
  refine ⟨server', (hr.handled hhandle).1, hempty, ?_⟩
  refine (eval_of_request htext ?_).trans (received_write rep _)
  rw [request_of_readAll hphrases.readAll, bind_of_ok (send_loopback hhandle hempty queue)]
  exact readReply_framed hcan hbrackets rfl hqueue hframed

/-- A session that asks for the completions of any text gets, in strict order, exactly the names
that begin with it and that the current module sees, and has read the whole reply, as long as these
names were read and what the request calls is resolved as it was installed. -/
theorem completions_loopback {n : Nat} {server opened : Repl} (hr : server.Reachable)
    (hpending : server.pending = "") (hconnect : Repl.connect server = .ok () opened)
    (hm : opened.machine.ServesCompletions) (stem : String)
    (hread : ∀ name, opened.machine.Sees opened.machine.current name →
      stem.toList <+: name.toList → Datum.WasRead name)
    {queue : List (List Char)} (hqueue : Quiet queue) :
    ∃ server' names, server'.Reachable ∧ server'.pending = "" ∧
      completions (Engine.ofAllowance (n + 3)) stem (.loopback server queue) =
        .ok names (.loopback server' []) ∧
      names.Pairwise (· < ·) ∧
      ∀ name, name ∈ names ↔
        opened.machine.Sees opened.machine.current name ∧ stem.toList <+: name.toList := by
  obtain ⟨connection, hservice⟩ := hm.service
  let names := Introspection.completions opened.machine stem
  have hcompletions : Introspection.completions opened.machine.beginCapture stem = names :=
    Introspection.completions_congr rfl rfl stem
  obtain ⟨m', hreply⟩ := evalReply_completions (n := n) (m := opened.machine.beginCapture)
    (hservice.congr rfl rfl) stem
  rw [hcompletions] at hreply
  have hnames : ∀ c ∈ (Datum.ofTexts names).write.toList, endsLine c = false := by
    refine Datum.endsLine_ofTexts fun name hname => ?_
    obtain ⟨hsees, hstem⟩ := Introspection.mem_completions.mp hname
    exact (hread name hsees hstem).endsLine_eq_false
  obtain ⟨server', hreach, hempty, heval⟩ := eval_phrase hr hpending hconnect
    (Inquiry.phrases_completionsForm stem) ⟨hm.eval, m', hreply⟩ (Reply.framed_single hnames) hqueue
  refine ⟨server', names, hreach, hempty, ?_, Introspection.pairwise_completions _ stem,
    fun name => Introspection.mem_completions⟩
  refine (bind_of_ok heval).trans ?_
  change ofDecoded (Decode.strings (Datum.ofTexts names).write) _ = _
  rw [Decode.strings_write]
  rfl

/-- A new server is asked how names may go on, and then for names that begin with a quotation mark,
an escape and a line end. -/
theorem completions_loopback_idle :
    (∃ server', server'.Reachable ∧ server'.pending = "" ∧
      completions (Engine.ofAllowance 20) "ca" (.loopback Repl.idle [['\n']]) =
        .ok ["caar", "cadr", "call-with-values", "car", "case"] (.loopback server' [])) ∧
    ∃ server', server'.Reachable ∧ server'.pending = "" ∧
      completions (Engine.ofAllowance 20) "\"\\\n" (.loopback Repl.idle []) =
        .ok [] (.loopback server' []) := by
  let home := Repl.idle.machine.current
  let stems := ["ca", "\"\\\n"]
  let found := ["case", "car", "cadr", "caar", "call-with-values"]
  -- the visible names are computed once for both beginnings
  obtain ⟨hconnection, hpending, heval, hservice, hcurrent, hfound⟩ :
      Repl.idle.connection = some 0 ∧ Repl.idle.pending = "" ∧ Repl.idle.machine.ServesEval ∧
      Repl.idle.machine.Resolves "geiser:completions" (.service 0 .completions) ∧
      home = Machine.defaultId ∧ ((Repl.idle.machine.visibleNames home).filter fun name =>
        stems.any fun stem => startsWith stem.toList name.toList) = found := by
    decide +kernel
  have hserves : Repl.idle.machine.ServesCompletions :=
    ⟨heval, 0, hcurrent ▸ Machine.resolvesIn_current.mpr hservice⟩
  have hbegun : ∀ stem ∈ stems, ∀ name, Repl.idle.machine.Sees home name ∧
      stem.toList <+: name.toList ↔ name ∈ found ∧ stem.toList <+: name.toList := by
    intro stem hstem name
    rw [← hfound, List.mem_filter, Machine.mem_visibleNames, List.any_eq_true]
    refine ⟨fun h => ⟨⟨h.1, stem, hstem, List.isPrefixOf_iff_prefix.mpr h.2⟩, h.2⟩,
      fun h => ⟨h.1.1, h.2⟩⟩
  have hread : ∀ stem ∈ stems, ∀ name, Repl.idle.machine.Sees home name →
      stem.toList <+: name.toList → Datum.WasRead name := by
    intro stem hstem name hsees hprefix
    have hreadable : ∀ name ∈ found, ReadableName name := by decide
    exact .of_readable (hreadable name ((hbegun stem hstem name).mp ⟨hsees, hprefix⟩).1)
  have hblank : ∀ line ∈ [['\n']], line ≠ [] ∧ allBlank line = true := by decide
  constructor
  · obtain ⟨server', names, hreach, hempty, hasked, hsorted, hnames⟩ :=
      completions_loopback (n := 17) Repl.reachable_idle hpending
        (Repl.connect_of_some hconnection) hserves "ca" (hread "ca" (by decide)) hblank
    have hall : ∀ name ∈ found, "ca".toList <+: name.toList := by decide
    have hperm : found.Perm ["caar", "cadr", "call-with-values", "car", "case"] := by decide
    have heq : names = ["caar", "cadr", "call-with-values", "car", "case"] := by
      refine hsorted.eq_of_mem_iff (by decide) fun name => ?_
      rw [hnames, hbegun "ca" (by decide), ← hperm.mem_iff]
      exact and_iff_left_of_imp (hall name)
    exact ⟨server', hreach, hempty, by rw [hasked, heq]⟩
  · obtain ⟨server', names, hreach, hempty, hasked, -, hnames⟩ :=
      completions_loopback (n := 17) Repl.reachable_idle hpending
        (Repl.connect_of_some hconnection) hserves "\"\\\n" (hread _ (by decide))
        (List.forall_mem_nil _)
    have hnone : ∀ name ∈ found, ¬ "\"\\\n".toList <+: name.toList := by decide
    have heq : names = [] := List.eq_nil_iff_forall_not_mem.mpr fun name hname => by
      obtain ⟨hmem, hprefix⟩ := (hbegun _ (by decide) name).mp ((hnames name).mp hname)
      exact hnone name hmem hprefix
    exact ⟨server', hreach, hempty, by rw [hasked, heq]⟩

end Session

end LiveScheme
