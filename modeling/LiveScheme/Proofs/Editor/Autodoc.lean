import LiveScheme.Proofs.Editor.Entries
import LiveScheme.Proofs.Editor.Loopback
import LiveScheme.Proofs.Editor.Quotation

/-!
# Asking about names

A session that asks a server of its own process about names gets one entry for each name that is
bound, in order, when the reply arrives as it was sent. A reply begins with the first of the names.
One that ends in the mark of a prompt makes the session take the beginning of the reply for a
prompt, and what is left is no reply about names.
-/

namespace LiveScheme

open Text

namespace Machine

/-- What a name means in a module. -/
def meaning? (m : Machine) (home : Nat) (name : String) : Option Introspection.Found :=
  match m.searchVariable name home with
  | .found owner => ((m.module owner).vars.get? name).map fun v => ⟨name, v, (m.module owner).name⟩
  | _ => none

theorem meaning?_congr {m m' : Machine} (h : m'.modules = m.modules) (home : Nat) (name : String) :
    m'.meaning? home name = m.meaning? home name := by
  have hsearch : m'.searchVariable name home = m.searchVariable name home := search_congr h _ _ _
  have hmodule : ∀ id, m'.module id = m.module id := fun id => by rw [module, module, h]
  unfold meaning?
  rw [hsearch]
  simp only [hmodule]

/-- The entries about those names that are bound in a module. -/
def entries (m : Machine) (home : Nat) (names : List String) : List NameEntry :=
  (names.filterMap (m.meaning? home)).map (NameEntry.ofFound m)

end Machine

namespace Introspection

theorem nameOf?_of_text {v : Value} {name : String} (h : v.text? = some name.toList)
    (hne : name ≠ "") : nameOf? v = some name := by
  have hname : name.toList ≠ [] := fun heq => hne (String.toList_eq_nil_iff.mp heq)
  have hback : String.ofList name.toList = name := String.ofList_toList
  unfold nameOf?
  split
  · cases h
  · rw [h]
    cases hcs : name.toList with
    | nil => exact absurd hcs hname
    | cons c cs =>
      rw [hcs] at hback
      exact congrArg some hback

theorem lookup?_ok {m : Machine} {home : Nat} {v : Value} {name : String}
    (h : v.text? = some name.toList) (hne : name ≠ "")
    (hs : m.searchVariable name home ≠ .endless) :
    lookup? v (some (.space home)) m = .ok (m.meaning? home name) m := by
  have hget : (get : Run Machine) m = .ok m m := rfl
  have hvalue : ∀ {found : Option (Value × Nat)}, Run.valueIn? name home m = .ok found m →
      lookup? v (some (.space home)) m =
        .ok (found.map fun p => ⟨name, p.1, (m.module p.2).name⟩) m := by
    intro found hfound
    unfold lookup?
    rw [nameOf?_of_text h hne]
    dsimp only
    rw [bind_of_ok hget]
    change (Run.valueIn? name home >>= _) m = _
    rw [bind_of_ok hfound]
    cases found <;> rfl
  unfold Machine.meaning?
  cases hsearch : m.searchVariable name home with
  | found owner =>
    have hfound : Run.valueIn? name home m =
        .ok (((m.module owner).vars.get? name).map fun v => (v, owner)) m := by
      unfold Run.valueIn?
      rw [bind_of_ok hget, hsearch]
      rfl
    rw [hvalue hfound, Option.map_map]
    rfl
  | absent =>
    have hfound : Run.valueIn? name home m = .ok none m := by
      unfold Run.valueIn?
      rw [bind_of_ok hget, hsearch]
      rfl
    exact hvalue hfound
  | endless => exact absurd hsearch hs

/-- The service makes the entries about the names that are bound, in order. -/
theorem autodocEntries_ok {m : Machine} {home : Nat} {names : List String}
    (hne : ∀ name ∈ names, name ≠ "") (hs : ∀ name ∈ names, m.searchVariable name home ≠ .endless)
    {vs : List Value} (hvs : vs.map (·.text?) = names.map fun name => some name.toList) (k : Nat) :
    ∃ ws l, autodocEntries (some (.space home)) vs { m with nextTag := k } =
      .ok ws { m with nextTag := l } ∧
      ws.map (·.datum m.objectText) = (m.entries home names).map (·.datum m.objectText) := by
  induction names generalizing vs k with
  | nil =>
    cases List.map_eq_nil_iff.mp hvs
    exact ⟨[], k, rfl, rfl⟩
  | cons name names ih =>
    obtain ⟨hname, hnames⟩ := List.forall_mem_cons.mp hne
    obtain ⟨hsname, hsnames⟩ := List.forall_mem_cons.mp hs
    obtain ⟨v, vs, rfl⟩ : ∃ v vs', vs = v :: vs' := by
      cases vs with
      | nil => cases hvs
      | cons v vs => exact ⟨v, vs, rfl⟩
    obtain ⟨hv, hvs⟩ := List.cons.inj hvs
    have hmodules : ({ m with nextTag := k } : Machine).modules = m.modules := rfl
    have hsearch : ({ m with nextTag := k } : Machine).searchVariable name home =
        m.searchVariable name home := Machine.search_congr hmodules _ _ _
    have hlookup : lookup? v (some (.space home)) { m with nextTag := k } =
        .ok (m.meaning? home name) { m with nextTag := k } := by
      rw [lookup?_ok hv hname (by rw [hsearch]; exact hsname), Machine.meaning?_congr hmodules]
    unfold autodocEntries Machine.entries
    rw [bind_of_ok hlookup]
    cases hmeaning : m.meaning? home name with
    | none =>
      rw [List.filterMap_cons_none hmeaning]
      exact ih hnames hsnames hvs k
    | some found =>
      rw [List.filterMap_cons_some hmeaning]
      obtain ⟨w, l, hw, hd⟩ := (NameEntry.ofFound m found).makes_value m.objectText
        { m with nextTag := k }
      obtain ⟨ws, j, hws, hds⟩ := ih hnames hsnames hvs l
      have hentry : autodocEntry found { m with nextTag := k } = .ok w { m with nextTag := l } :=
        (NameEntry.autodocEntry_eq { m with nextTag := k } found).trans hw
      refine ⟨w :: ws, j, ?_, by rw [List.map_cons, hd, hds]; rfl⟩
      dsimp only
      rw [bind_of_ok hentry, bind_of_ok hws]
      rfl

/-- The reply of the service to a list of texts. -/
theorem autodoc_ok {m : Machine} {home : Nat} {names : List String}
    (hne : ∀ name ∈ names, name ≠ "") (hs : ∀ name ∈ names, m.searchVariable name home ≠ .endless)
    {vs : List Value} (hvs : vs.map (·.text?) = names.map fun name => some name.toList)
    (tag : Identity) (k : Nat) :
    ∃ v l, autodoc (.list tag vs) (some (.space home)) { m with nextTag := k } =
      .ok v { m with nextTag := l } ∧
      v.datum m.objectText = .list ((m.entries home names).map (·.datum m.objectText)) := by
  obtain ⟨ws, l, hws, hds⟩ := autodocEntries_ok hne hs hvs k
  obtain ⟨v, j, hv, hd⟩ := Run.makes_newList hds { m with nextTag := l }
  exact ⟨v, j, (bind_of_ok hws).trans hv, hd⟩

end Introspection

/-- A list of texts as a value. -/
theorem Run.ofData_texts (names : List String) (tag : Nat) : ∃ vs k,
    (∀ m : Machine, m.nextTag = tag → Run.ofData (names.map fun name => .str name) m =
      .ok vs { m with nextTag := k }) ∧
      vs.map (·.text?) = names.map fun name => some name.toList := by
  induction names generalizing tag with
  | nil => exact ⟨[], tag, fun m hm => by rw [← hm]; rfl, rfl⟩
  | cons name names ih =>
    obtain ⟨vs, k, hvs, htexts⟩ := ih (tag + 1)
    refine ⟨.str (.fresh tag) name :: vs, k, fun m hm => ?_, by rw [List.map_cons, htexts]; rfl⟩
    have hv : Run.ofDatum (.str name) m =
        .ok (.str (.fresh tag) name) { m with nextTag := tag + 1 } := by
      rw [← hm]
      rfl
    rw [List.map_cons, ofData, bind_of_ok hv, bind_of_ok (hvs { m with nextTag := tag + 1 } rfl)]
    rfl

namespace Machine

/-- The current module resolves what a request about names calls as it was installed. -/
structure ServesAutodoc (m : Machine) : Prop where
  service : ∃ connection, m.Resolves "geiser:autodoc" (.service connection .autodoc)
  quote : Run.keywordIn? "quote" m.current m = .ok (some (.form .quote)) m
  home : m.Resolves "current-module" (.builtin .currentModule)

theorem ServesAutodoc.congr {m m' : Machine} (hm : m.ServesAutodoc) (h : m'.modules = m.modules)
    (hk : m'.keywordsAreValues = m.keywordsAreValues) (hc : m'.current = m.current) :
    m'.ServesAutodoc := by
  obtain ⟨connection, hservice⟩ := hm.service
  refine ⟨⟨connection, hservice.congr h hk hc⟩, ?_, hm.home.congr h hk hc⟩
  rw [hc]
  exact Run.keywordIn?_congr h hk hm.quote

/-- The entries of a reply, as a datum. -/
def autodocDatum (m : Machine) (names : List String) : Datum :=
  .list ((m.entries m.current names).map (·.datum m.objectText))

theorem objectText_congr {m m' : Machine} (h : m'.modules = m.modules)
    (hc : m'.closures = m.closures) : m'.objectText = m.objectText := by
  funext o
  unfold objectText closureName module
  rw [h, hc]

theorem autodocDatum_congr {m m' : Machine} (h : m'.modules = m.modules)
    (hc : m'.closures = m.closures) (hcurrent : m'.current = m.current) (names : List String) :
    m'.autodocDatum names = m.autodocDatum names := by
  have htext := objectText_congr h hc
  have hmeaning : m'.meaning? m'.current = m.meaning? m.current := by
    rw [hcurrent]
    exact funext (meaning?_congr h m.current)
  have hentry : NameEntry.ofFound m' = NameEntry.ofFound m := by
    funext found
    unfold NameEntry.ofFound write
    rw [htext, hc]
  rw [autodocDatum, autodocDatum, entries, entries, hmeaning, hentry, htext]

end Machine

namespace Engine

/-- The module that a call stands in. -/
theorem eval_currentModule {n : Nat} {m : Machine}
    (hm : m.Resolves "current-module" (.builtin .currentModule)) (tag : Identity) :
    (ofAllowance (n + 2)).eval (.list tag [.sym "current-module"]) (.ofModule m.current) m =
      .ok (.space m.current) m := by
  have hargs : (ofAllowance (n + 1)).evalAll (.ofModule m.current) [] m = .ok [] m := rfl
  exact eval_primitive (Machine.resolvesIn_current.mpr hm) tag hargs rfl

/-- A call of the service about names. -/
theorem eval_autodoc {n : Nat} {m : Machine} (hm : m.ServesAutodoc) {names : List String}
    (hne : ∀ name ∈ names, name ≠ "")
    (hs : ∀ name ∈ names, m.searchVariable name m.current ≠ .endless) {vs : List Value}
    (hvs : vs.map (·.text?) = names.map fun name => some name.toList)
    (tag tag₁ tag₂ tag₃ : Identity) :
    ∃ v k, (ofAllowance (n + 3)).eval (.list tag [.sym "geiser:autodoc",
      .list tag₁ [.sym "quote", .list tag₂ vs], .list tag₃ [.sym "current-module"]])
      (.ofModule m.current) m = .ok v { m with nextTag := k } ∧
      v.datum m.objectText = m.autodocDatum names := by
  obtain ⟨connection, hservice⟩ := hm.service
  have hargs : (ofAllowance (n + 2)).evalAll (.ofModule m.current)
      [.list tag₁ [.sym "quote", .list tag₂ vs], .list tag₃ [.sym "current-module"]] m =
      .ok [.list tag₂ vs, .space m.current] m := by
    rw [evalAll, bind_of_ok (eval_quoted hm.quote tag₁ _), evalAll, bind_assoc,
      bind_of_ok (eval_currentModule hm.home tag₃)]
    rfl
  obtain ⟨v, k, hv, hd⟩ := Introspection.autodoc_ok hne hs hvs tag₂ m.nextTag
  have hcount : Service.autodoc.count 1 2 [.list tag₂ vs, .space m.current] m = .ok () m := rfl
  refine ⟨v, k, eval_primitive (Machine.resolvesIn_current.mpr hservice) tag hargs ?_, hd⟩
  unfold Primitive.call Service.call
  dsimp only
  rw [bind_of_ok hcount]
  exact hv

end Engine

namespace Command

theorem evalForm_autodoc {n : Nat} {m : Machine} (hm : m.ServesAutodoc) {names : List String}
    (hne : ∀ name ∈ names, name ≠ "")
    (hs : ∀ name ∈ names, m.searchVariable name m.current ≠ .endless) :
    ∃ v k, Repl.evalForm (Engine.ofAllowance (n + 3)) (autodocDatum names) m =
      .ok ([v], "") { m with nextTag := k } ∧ m.write v = (m.autodocDatum names).write := by
  obtain ⟨vs, k, hvs, htexts⟩ := Run.ofData_texts names m.nextTag
  have hquoted : Run.ofDatum (Datum.list (names.map fun name => .str name)).quoted m =
      .ok (.list (.fresh (k + 1)) [.sym "quote", .list (.fresh k) vs])
        { m with nextTag := k + 2 } := by
    have hname : Run.ofDatum (.sym "quote") m = .ok (.sym "quote") m := rfl
    have hlist : Run.ofDatum (Datum.list (names.map fun name => .str name)) m =
        .ok (.list (.fresh k) vs) { m with nextTag := k + 1 } := by
      rw [Run.ofDatum, bind_of_ok (hvs m rfl)]
      rfl
    rw [Datum.quoted, Run.ofDatum, Run.ofData, Run.ofData, Run.ofData]
    simp only [bind_assoc]
    rw [bind_of_ok hname, bind_of_ok hlist]
    rfl
  have hrequest : Run.ofDatum (autodocDatum names) m =
      .ok (.list (.fresh (k + 3)) [.sym "geiser:autodoc",
        .list (.fresh (k + 1)) [.sym "quote", .list (.fresh k) vs],
        .list (.fresh (k + 2)) [.sym "current-module"]]) { m with nextTag := k + 4 } := by
    have hname : Run.ofDatum (.sym "geiser:autodoc") m = .ok (.sym "geiser:autodoc") m := rfl
    have hhome : Run.ofDatum (.list [.sym "current-module"]) { m with nextTag := k + 2 } =
        .ok (.list (.fresh (k + 2)) [.sym "current-module"]) { m with nextTag := k + 3 } := rfl
    rw [autodocDatum, Run.ofDatum, Run.ofData, Run.ofData, Run.ofData, Run.ofData]
    simp only [bind_assoc]
    rw [bind_of_ok hname, bind_of_ok hquoted, bind_of_ok hhome]
    rfl
  have hmodules : ({ m with nextTag := k + 4 } : Machine).beginCapture.modules = m.modules := rfl
  have hsearch : ∀ name, ({ m with nextTag := k + 4 } : Machine).beginCapture.searchVariable name
      m.current = m.searchVariable name m.current := fun name => Machine.search_congr hmodules ..
  obtain ⟨v, l, hv, hd⟩ := Engine.eval_autodoc (n := n)
    (m := ({ m with nextTag := k + 4 } : Machine).beginCapture) (hm.congr rfl rfl rfl) hne
    (fun name hname heq => hs name hname ((hsearch name).symm.trans heq)) htexts (.fresh (k + 3))
    (.fresh (k + 1)) (.fresh k) (.fresh (k + 2))
  obtain ⟨tag, items, rfl⟩ := Node.eq_list_of_datum hd
  refine ⟨.list tag items, l, Repl.evalForm_of_ok hrequest hv, ?_⟩
  rw [Machine.autodocDatum_congr hmodules rfl rfl] at hd
  rw [m.write_eq]
  exact congrArg Datum.write hd

end Command

namespace Repl

/-- The server answers a request about names with the entries and a blank line. -/
theorem handle_autodoc {n : Nat} {r opened : Repl} (hr : r.Reachable) (hpending : r.pending = "")
    (hconnect : connect r = .ok () opened) (hm : opened.machine.ServesAutodoc)
    {names : List String} (hne : ∀ name ∈ names, name ≠ "")
    (hs : ∀ name ∈ names, opened.machine.searchVariable name opened.machine.current ≠ .endless)
    {text : String} (hread : Datum.readAll (text ++ "\n") = .ok [Command.autodocDatum names]) :
    ∃ r', handle (Engine.ofAllowance (n + 3)) (text ++ "\n") r =
      .ok ((opened.machine.autodocDatum names).write ++ "\n\n") r' ∧ r'.pending = "" := by
  have hopens := hr.opens hconnect
  have hall : Datum.readAll (opened.pending ++ (text ++ "\n")) =
      .ok [Command.autodocDatum names] := by
    rwa [hopens.pending, hpending, String.empty_append]
  obtain ⟨v, k, heval, hwrite⟩ := Command.evalForm_autodoc (n := n) hm hne hs
  obtain ⟨disk, hhandle⟩ := handle_form (Engine.moves_ofAllowance (n + 3)) hconnect
    hopens.reachable.logsReady hall heval
  have hlines : linesOf { opened.machine with nextTag := k } [v] =
      (opened.machine.autodocDatum names).write ++ "\n\n" := by
    have hwrite' : ({ opened.machine with nextTag := k } : Machine).write v =
        (opened.machine.autodocDatum names).write := hwrite
    rw [linesOf, List.map_singleton, hwrite']
    simp [String.append_assoc]
  rw [hlines, String.empty_append] at hhandle
  exact ⟨_, hhandle, rfl⟩

end Repl

namespace Dialogue

open Command

/-- A text that arrives as it was sent: each of its lines has something on it, and none begins with
a prompt. -/
def Framed (text : String) : Prop :=
  ∀ line ∈ lines (text.toList ++ ['\n']), allBlank line = false ∧ dropPrompt line = line

instance (text : String) : Decidable (Framed text) :=
  inferInstanceAs (Decidable (∀ line ∈ _, _))

/-- A text with no line end in it. -/
def OnOneLine (text : String) : Prop := ∀ c ∈ text.toList, endsLine c = false

/-- A text whose lines all have something on them is read as what they say without prompts. -/
theorem readReply_carried {t : Transport} (h : t.CanRead) {front : List (List Char)}
    {text : String} (hl : t.lines = front ++ lines (text ++ "\n\n").toList) (hf : Quiet front)
    (hcarries : ∀ line ∈ lines (text.toList ++ ['\n']), Carries line) :
    readReply t = .ok (String.ofList (dropEnd (· == '\n')
      ((lines (text.toList ++ ['\n'])).flatMap dropPrompt))) (t.withLines []) := by
  have hfeed : Separates ['\n'] := ⟨by simp, by decide⟩
  have hlines : lines (text ++ "\n\n").toList = lines (text.toList ++ ['\n']) ++ [['\n']] := by
    rw [String.toList_append]
    exact lines_append_feed text.toList ['\n']
  have hne : lines (text.toList ++ ['\n']) ≠ [] := lines_ne_nil (by simp)
  exact readReply_ok h (hl.trans (by rw [hlines])) hf.separates hne hcarries hfeed

theorem dropEnd_ended {text : String} {body : List Char} {c : Char} (hc : c ≠ '\n')
    (htext : text.toList = body ++ [c]) :
    String.ofList (dropEnd (· == '\n') (text.toList ++ ['\n'])) = text := by
  have hdrop : dropEnd (· == '\n') (text.toList ++ ['\n']) = text.toList := by
    rw [htext]
    simp [dropEnd, hc]
  rw [hdrop, String.ofList_toList]

/-- A text that arrives as it was sent, with no line feed at its end. -/
theorem readReply_ended {t : Transport} (h : t.CanRead) {front : List (List Char)}
    {text : String} {body : List Char} {c : Char} (hc : c ≠ '\n')
    (htext : text.toList = body ++ [c]) (hl : t.lines = front ++ lines (text ++ "\n\n").toList)
    (hf : Quiet front) (hframed : Framed text) : readReply t = .ok text (t.withLines []) := by
  have hcarries : ∀ line ∈ lines (text.toList ++ ['\n']), Carries line := fun line hline =>
    ⟨ne_nil_of_mem_lines line hline, by rw [(hframed line hline).2, (hframed line hline).1]⟩
  have hflat : (lines (text.toList ++ ['\n'])).flatMap dropPrompt = text.toList ++ ['\n'] := by
    rw [List.flatMap_def, List.map_congr_left fun line hline => (hframed line hline).2,
      List.map_id', flatten_lines]
  rw [readReply_carried h hl hf hcarries, hflat, dropEnd_ended hc htext]

/-- A text in brackets that arrives as it was sent. -/
theorem readReply_framed {t : Transport} (h : t.CanRead) {front : List (List Char)}
    {text : String} {body : List Char} (htext : text.toList = body ++ [')'])
    (hl : t.lines = front ++ lines (text ++ "\n\n").toList) (hf : Quiet front)
    (hframed : Framed text) : readReply t = .ok text (t.withLines []) :=
  readReply_ended h (by decide) htext hl hf hframed

theorem lines_of_onOneLine {text : String} (h : OnOneLine text) :
    lines (text.toList ++ ['\n']) = [text.toList ++ ['\n']] := by
  rw [lines_append_of_not h]
  rfl

theorem dropPrompt_eq_self_iff (cs : List Char) : dropPrompt cs = cs ↔ NoPrompt cs := by
  refine ⟨fun h => ?_, dropPrompt_of_noPrompt⟩
  rcases dropPrompt_cases cs with ⟨word, rest, -, heq, hdrop⟩ | ⟨hno, -⟩
  · have hlength := congrArg List.length (hdrop.symm.trans (h.trans heq))
    simp only [List.length_append, List.length_cons] at hlength
    omega
  · exact hno

/-- A reply on one line arrives as it was sent when no prompt begins it. -/
theorem framed_iff_noPrompt {text : String} (h : OnOneLine text) {body : List Char} {c : Char}
    (hc : isBlank c = false) (htext : text.toList = c :: body) :
    Framed text ↔ NoPrompt (text.toList ++ ['\n']) := by
  have hblank : allBlank (text.toList ++ ['\n']) = false := by
    rw [htext]
    simp [allBlank, hc]
  rw [Framed, lines_of_onOneLine h, List.forall_mem_singleton, hblank, dropPrompt_eq_self_iff]
  simp

end Dialogue

theorem ReadableName.isBlank_eq_false {name : String} (h : ReadableName name) :
    ∀ c ∈ name.toList, isBlank c = false := fun c hc =>
  Token.isBlank_of_isWordChar (h.isWord.chars c hc)

namespace Command

/-- The name ends with the mark of a prompt, which is the only one in it. -/
def EndsAsPrompt (name : String) : Prop := ∃ word, name.toList = word ++ ['>'] ∧ '>' ∉ word

/-- The first blank of a text splits it in one way. -/
theorem append_blank_inj {as bs xs ys : List Char} {a b : Char}
    (has : ∀ c ∈ as, isBlank c = false) (hbs : ∀ c ∈ bs, isBlank c = false)
    (ha : isBlank a = true) (hb : isBlank b = true) (h : as ++ a :: xs = bs ++ b :: ys) :
    as = bs ∧ xs = ys := by
  induction as generalizing bs with
  | nil =>
    cases bs with
    | nil => exact ⟨rfl, (List.cons.inj h).2⟩
    | cons c bs =>
      rw [(List.cons.inj h).1, hbs c List.mem_cons_self] at ha
      cases ha
  | cons c as ih =>
    obtain ⟨hc, has⟩ := List.forall_mem_cons.mp has
    cases bs with
    | nil =>
      rw [(List.cons.inj h).1, hb] at hc
      cases hc
    | cons d bs =>
      obtain ⟨rfl, heq⟩ := List.cons.inj h
      obtain ⟨rfl, rfl⟩ := ih has (List.forall_mem_cons.mp hbs).2 heq
      exact ⟨rfl, rfl⟩

/-- The beginning of a reply up to a name that ends as a prompt is dropped. -/
theorem dropPrompt_name {name : String} (h : ReadableName name) (hname : EndsAsPrompt name)
    (rest : List Char) : dropPrompt ('(' :: '(' :: (name.toList ++ ' ' :: rest)) = rest := by
  obtain ⟨word, hword, hmark⟩ := hname
  have hprompt : ∀ c ∈ '(' :: '(' :: word, isPromptChar c = true := by
    refine List.forall_mem_cons.mpr ⟨by decide, List.forall_mem_cons.mpr ⟨by decide, ?_⟩⟩
    intro c hc
    have hblank : isBlank c = false := h.isBlank_eq_false c (by rw [hword]; simp [hc])
    have hne : c ≠ '>' := fun heq => hmark (heq ▸ hc)
    simp [isPromptChar, hblank, hne]
  have hdrop := dropPrompt_append hprompt rest
  rw [hword]
  simpa using hdrop

/-- A reply that begins with a name begins with a prompt when the name ends as one. -/
theorem noPrompt_name_iff {name : String} (h : ReadableName name) (rest : List Char) :
    NoPrompt ('(' :: '(' :: (name.toList ++ ' ' :: rest)) ↔ ¬ EndsAsPrompt name := by
  constructor
  · intro hno hname
    have hlength := congrArg List.length
      ((dropPrompt_of_noPrompt hno).symm.trans (dropPrompt_name h hname rest))
    simp only [List.length_cons, List.length_append] at hlength
    omega
  · intro hnot word more hword heq
    have hwordBlank : ∀ c ∈ word ++ ['>'], isBlank c = false := by
      intro c hc
      rcases List.mem_append.mp hc with hc | hc
      · have hprompt := hword c hc
        simp only [isPromptChar, Bool.not_eq_true', Bool.or_eq_false_iff] at hprompt
        exact hprompt.1
      · rw [List.mem_singleton.mp hc]
        decide
    have hopen : ∀ c ∈ '(' :: '(' :: name.toList, isBlank c = false :=
      List.forall_mem_cons.mpr ⟨by decide,
        List.forall_mem_cons.mpr ⟨by decide, h.isBlank_eq_false⟩⟩
    have hsplit : ('(' :: '(' :: name.toList) ++ ' ' :: rest = (word ++ ['>']) ++ ' ' :: more := by
      rw [List.append_assoc]
      exact heq
    obtain ⟨hnames, -⟩ := append_blank_inj hopen hwordBlank (by decide) (by decide) hsplit
    rcases word with _ | ⟨_, _ | ⟨_, word⟩⟩
    · cases (List.cons.inj hnames).1
    · cases (List.cons.inj (List.cons.inj hnames).2).1
    · refine hnot ⟨word, (List.cons.inj (List.cons.inj hnames).2).2, fun hmark => ?_⟩
      have hprompt := hword '>' (by simp [hmark])
      cases hprompt

end Command

namespace NameEntry

open Text

variable {objectText : Object → Option String} {e : NameEntry}

/-- What follows the first of some items. -/
theorem itemsChars_cons (x : Datum) (rest : List Datum) :
    ∃ more, Node.itemsChars Empty.elim true (x :: rest) = Node.chars Empty.elim true x ++ more ∧
      ∀ stop, Token.AtGap stop → Token.AtGap (more ++ stop) := by
  cases rest with
  | nil => exact ⟨[], rfl, fun _ h => h⟩
  | cons y rest =>
    exact ⟨' ' :: Node.itemsChars Empty.elim true (y :: rest), rfl,
      fun _ _ => Token.atGap_cons (by decide) _⟩

/-- What is left of a reply when the name of its first entry was taken for a prompt is no reply
about names. -/
theorem autodoc_props (h : e.Readable objectText) {p : Datum} {ps : List Datum}
    (hp : e.props objectText = p :: ps) {rest : List Char} (hr : Token.AtGap rest) :
    ∃ err, Decode.autodoc (String.ofList (Node.chars Empty.elim true p ++ rest)) =
      .error (.error err) ∧ err.category = .protocol := by
  have hreadable : p.Readable := h.props p (by rw [hp]; exact List.mem_cons_self)
  have hparse : Decode.parse (String.ofList (Node.chars Empty.elim true p ++ rest)) = pure p := by
    rw [Decode.parse, hreadable.readOne hr]
    rfl
  rw [Decode.autodoc, hparse, pure_bind]
  cases e with
  | closure sig => cases hp; exact ⟨_, rfl, rfl⟩
  | procedure n home => cases hp; exact ⟨_, rfl, rfl⟩
  | object n text home => cases hp; exact ⟨_, rfl, rfl⟩

theorem exists_props (objectText : Object → Option String) (e : NameEntry) :
    ∃ p ps body, e.props objectText = p :: ps ∧ Node.chars Empty.elim true p = '(' :: body := by
  cases e <;> exact ⟨_, _, _, rfl, rfl⟩

/-- The text of a reply from its first entry on. -/
theorem chars_cons (e : NameEntry) (es : List NameEntry) {p : Datum} {ps : List Datum}
    (hp : e.props objectText = p :: ps) :
    ∃ rest, Token.AtGap (rest ++ [')']) ∧
      (Datum.list ((e :: es).map (·.datum objectText))).write.toList =
        '(' :: '(' :: (e.name.toList ++
          ' ' :: (Node.chars Empty.elim true p ++ (rest ++ [')']))) := by
  obtain ⟨more, hmore, hgap⟩ := itemsChars_cons p ps
  obtain ⟨tail, htail, -⟩ := itemsChars_cons (e.datum objectText) (es.map (·.datum objectText))
  have hentry : Node.chars Empty.elim true (e.datum objectText) =
      '(' :: (e.name.toList ++ ' ' :: (Node.chars Empty.elim true p ++ more)) ++ [')'] := by
    rw [datum, hp, ← hmore]
    rfl
  refine ⟨more ++ ')' :: tail, ?_, ?_⟩
  · rw [List.append_assoc]
    exact hgap _ (Lexed.atGap_close _)
  rw [Datum.write, String.toList_ofList, Node.chars, List.map_cons, htail, hentry]
  simp

@[simp] theorem name_ofFound (m : Machine) (found : Introspection.Found) :
    (ofFound m found).name = found.name := by
  unfold ofFound
  split
  · split <;> rfl
  · rfl
  · rfl

@[simp] theorem home_ofFound (m : Machine) (found : Introspection.Found) :
    (ofFound m found).home = found.home := by
  unfold ofFound
  split
  · split <;> rfl
  · rfl
  · rfl

/-- The reply that lists the entries. -/
def reply (objectText : Object → Option String) (es : List NameEntry) : String :=
  (Datum.list (es.map (·.datum objectText))).write

/-- A reply on one line arrives as it was sent unless its first name ends as a prompt. -/
theorem framed_reply_iff {es : List NameEntry} (h : ∀ e ∈ es, e.Readable objectText)
    (hline : Dialogue.OnOneLine (reply objectText es)) :
    Dialogue.Framed (reply objectText es) ↔ ∀ e ∈ es.head?, ¬ Command.EndsAsPrompt e.name := by
  cases es with
  | nil =>
    have hframed : Dialogue.Framed (reply objectText []) := by
      have hempty : reply objectText [] = "()" := rfl
      rw [hempty]
      decide
    simpa using hframed
  | cons e es =>
    obtain ⟨p, ps, body, hp, -⟩ := exists_props objectText e
    obtain ⟨rest, -, htext⟩ := chars_cons e es hp
    have hname := (List.forall_mem_cons.mp h).1.name
    rw [Dialogue.framed_iff_noPrompt hline (by decide) htext, reply, htext]
    simpa using Command.noPrompt_name_iff hname
      (Node.chars Empty.elim true p ++ (rest ++ [')', '\n']))

/-- A reply on one line whose first name ends as a prompt loses its beginning. -/
theorem dropPrompt_reply {e : NameEntry} (h : e.Readable objectText) (es : List NameEntry)
    (hprompt : Command.EndsAsPrompt e.name) :
    ∃ text err, Command.dropPrompt ((reply objectText (e :: es)).toList ++ ['\n']) =
        '(' :: (text ++ [')', '\n']) ∧
      Decode.autodoc (String.ofList ('(' :: (text ++ [')']))) = .error (.error err) ∧
      err.category = .protocol := by
  obtain ⟨p, ps, body, hp, hbody⟩ := exists_props objectText e
  obtain ⟨rest, hgap, htext⟩ := chars_cons e es hp
  obtain ⟨err, hdecode, hcategory⟩ := autodoc_props h hp hgap
  have hdrop := Command.dropPrompt_name h.name hprompt
    (Node.chars Empty.elim true p ++ (rest ++ [')', '\n']))
  refine ⟨body ++ rest, err, ?_, ?_, hcategory⟩
  · rw [reply, htext]
    simpa [hbody] using hdrop
  · rw [hbody] at hdecode
    simpa using hdecode

theorem name_read (objectText : Object → Option String) (e : NameEntry) :
    (e.read objectText).name = .text e.name := by cases e <;> rfl

theorem home_read (objectText : Object → Option String) (e : NameEntry) :
    (e.read objectText).home = .text e.home := by cases e <;> rfl

end NameEntry

namespace Session

open Command Dialogue

variable {g : Engine}

theorem autodoc_of_request {names : List String} {text reply : String} {t t' : Transport}
    (htext : expression ⟨"autodoc", names.map fun name => some (quoteText name)⟩ none = .ok text)
    (h : request g text t = .ok reply t') :
    autodoc g names none t = ofDecoded (Decode.autodoc reply) t' := by
  have hcommand : command g "autodoc" (names.map fun name => some (quoteText name)) none =
      request g text := by
    rw [command, htext]
    rfl
  rw [autodoc, hcommand]
  exact bind_of_ok h

section Loopback

variable {n : Nat} {server opened : Repl} (hr : server.Reachable) (hpending : server.pending = "")
  (hconnect : Repl.connect server = .ok () opened) (hm : opened.machine.ServesAutodoc)
  {names : List String} (hne : ∀ name ∈ names, name ≠ "")
  (hs : ∀ name ∈ names, opened.machine.searchVariable name opened.machine.current ≠ .endless)

include hr hpending hconnect hm hne hs

/-- The request is sent, and its reply is read from among the lines that come back. -/
theorem autodoc_sent (queue : List (List Char)) : ∃ server', server'.Reachable ∧
    server'.pending = "" ∧ ∀ reply t, readReply (.loopback server'
      (queue ++ lines ((opened.machine.autodocDatum names).write ++ "\n\n").toList)) =
        .ok reply t → autodoc (Engine.ofAllowance (n + 3)) names none (.loopback server queue) =
          ofDecoded (Decode.autodoc reply) t := by
  obtain ⟨text, htext, hphrases⟩ := phrases_autodoc names
  have hfeed : ∀ c ∈ ['\n'], isBlank c = true := by decide
  obtain ⟨server', hhandle, hempty⟩ := Repl.handle_autodoc (n := n) hr hpending hconnect hm hne hs
    (hphrases.readAll_append hfeed)
  refine ⟨server', (hr.handled hhandle).1, hempty, fun reply t ht => ?_⟩
  refine autodoc_of_request htext ?_
  rw [request_of_readAll hphrases.readAll, bind_of_ok (send_loopback hhandle hempty queue)]
  exact ht

end Loopback

/-- A session that asks about names gets one entry for each name that is bound in the current
module, in order, when the reply arrives as it was sent. A reply on one line does so unless the
first name in it ends as a prompt; the session then ends with an error. -/
theorem autodoc_loopback {n : Nat} {server opened : Repl} (hr : server.Reachable)
    (hpending : server.pending = "") (hconnect : Repl.connect server = .ok () opened)
    (hm : opened.machine.ServesAutodoc) {names : List String} (hne : ∀ name ∈ names, name ≠ "")
    (hs : ∀ name ∈ names, opened.machine.searchVariable name opened.machine.current ≠ .endless)
    (hread : ∀ e ∈ opened.machine.entries opened.machine.current names,
      e.Readable opened.machine.objectText) {queue : List (List Char)} (hqueue : Quiet queue) :
    let found := names.filterMap (opened.machine.meaning? opened.machine.current)
    let reply := (opened.machine.autodocDatum names).write
    (Framed reply → ∃ server' entries, server'.Reachable ∧ server'.pending = "" ∧
      autodoc (Engine.ofAllowance (n + 3)) names none (.loopback server queue) =
        .ok entries (.loopback server' []) ∧
      entries.map (fun e => (e.name, e.home)) =
        found.map fun f => (Part.text f.name, Part.text f.home)) ∧
    (OnOneLine reply → (Framed reply ↔ ∀ f ∈ found.head?, ¬ EndsAsPrompt f.name)) ∧
    (OnOneLine reply → (∃ f ∈ found.head?, EndsAsPrompt f.name) → ∃ e t,
      autodoc (Engine.ofAllowance (n + 3)) names none (.loopback server queue) =
        .error (.error e) t ∧ e.category = .protocol) := by
  intro found reply
  obtain ⟨server', hreach, hempty, hsent⟩ :=
    autodoc_sent (n := n) hr hpending hconnect hm hne hs queue
  have hcan : (Transport.loopback server' (queue ++ lines (reply ++ "\n\n").toList)).CanRead :=
    trivial
  have hreply : reply = NameEntry.reply opened.machine.objectText
      (found.map (NameEntry.ofFound opened.machine)) := rfl
  have hentries : ∀ e ∈ found.map (NameEntry.ofFound opened.machine),
      e.Readable opened.machine.objectText := hread
  refine ⟨fun hframed => ?_, fun hline => ?_, fun hline hprompt => ?_⟩
  · have hbrackets : ∃ body, reply.toList = body ++ [')'] := ⟨_, String.toList_ofList⟩
    obtain ⟨body, hbody⟩ := hbrackets
    have hdecode : Decode.autodoc reply = .ok ((found.map (NameEntry.ofFound opened.machine)).map
        (·.read opened.machine.objectText)) := Decode.autodoc_write hentries
    have hasked := hsent _ _ (readReply_framed hcan hbody rfl hqueue hframed)
    rw [hdecode] at hasked
    refine ⟨server', _, hreach, hempty, hasked, ?_⟩
    simp [NameEntry.name_read, NameEntry.home_read]
  · rw [hreply, NameEntry.framed_reply_iff hentries hline]
    simp
  · obtain ⟨f, hf, hname⟩ := hprompt
    obtain ⟨more, hfound⟩ : ∃ more, found = f :: more := List.head?_eq_some_iff.mp hf
    rw [hfound, List.map_cons] at hreply hentries
    obtain ⟨text, err, hdrop, hdecode, hcategory⟩ := NameEntry.dropPrompt_reply
      (List.forall_mem_cons.mp hentries).1 (more.map (NameEntry.ofFound opened.machine))
      (by rwa [NameEntry.name_ofFound])
    rw [← hreply] at hdrop
    have hopen : isBlank '(' = false := by decide
    have hcarries : ∀ line ∈ lines (reply.toList ++ ['\n']), Carries line := by
      rw [lines_of_onOneLine hline]
      refine List.forall_mem_singleton.mpr ⟨by simp, ?_⟩
      rw [hdrop]
      simp [allBlank, hopen]
    have hread := readReply_carried hcan rfl hqueue hcarries
    rw [lines_of_onOneLine hline, List.flatMap_singleton, hdrop] at hread
    have hasked := hsent _ _ hread
    have hdropEnd : dropEnd (· == '\n') ('(' :: (text ++ [')', '\n'])) =
        '(' :: (text ++ [')']) := by
      simp [dropEnd]
    rw [hdropEnd, hdecode] at hasked
    exact ⟨err, _, hasked, hcategory⟩

/-- A new server is asked about procedures of the base module, one of them twice, and about a name
that is unbound; then about a name that is taken for a prompt. -/
theorem autodoc_loopback_idle :
    (∃ server' entries, server'.Reachable ∧ server'.pending = "" ∧
      autodoc (Engine.ofAllowance 20) ["car", "nothing", "->", "cadr", "car"] none
        (.loopback Repl.idle []) = .ok entries (.loopback server' []) ∧
      entries.map (fun e => (e.name, e.home)) =
        ["car", "cadr", "car"].map fun name => (Part.text name, Part.text "SCHEME")) ∧
    ∃ e t, autodoc (Engine.ofAllowance 20) [">"] none (.loopback Repl.idle []) =
      .error (.error e) t ∧ e.category = .protocol := by
  let names := ["car", "nothing", "->", "cadr", "car"]
  let home := Repl.idle.machine.current
  let isKnown : NameEntry → Bool := fun e => match e with
    | .procedure n home => ["car", "cadr", ">", "SCHEME"].contains n && home == "SCHEME"
    | _ => false
  -- the new server is computed once for all that is asked about it
  obtain ⟨⟨hconnection, hpending, heval, hservice, hhome⟩, ⟨hs, hknown, hframed, hfound⟩, hsPrompt,
      hknownPrompt, hfoundPrompt, hline⟩ :
      (Repl.idle.connection = some 0 ∧ Repl.idle.pending = "" ∧ Repl.idle.machine.ServesEval ∧
        Repl.idle.machine.Resolves "geiser:autodoc" (.service 0 .autodoc) ∧
        Repl.idle.machine.Resolves "current-module" (.builtin .currentModule)) ∧
      ((∀ name ∈ names, Repl.idle.machine.searchVariable name home ≠ .endless) ∧
        (Repl.idle.machine.entries home names).all isKnown = true ∧
        Framed (Repl.idle.machine.autodocDatum names).write ∧
        (names.filterMap (Repl.idle.machine.meaning? home)).map (fun f => (f.name, f.home)) =
          ["car", "cadr", "car"].map fun name => (name, "SCHEME")) ∧
      (∀ name ∈ [">"], Repl.idle.machine.searchVariable name home ≠ .endless) ∧
      (Repl.idle.machine.entries home [">"]).all isKnown = true ∧
      ([">"].filterMap (Repl.idle.machine.meaning? home)).head?.map (·.name) = some ">" ∧
      ∀ c ∈ (Repl.idle.machine.autodocDatum [">"]).write.toList, endsLine c = false := by
    decide +kernel
  have hserves : Repl.idle.machine.ServesAutodoc := ⟨⟨0, hservice⟩, heval.quote, hhome⟩
  have hqueue : Quiet [] := List.forall_mem_nil _
  have hnames : ∀ {n : String}, n ∈ ["car", "cadr", ">", "SCHEME"] → ReadableName n := by decide
  have hread : ∀ {es : List NameEntry}, es.all isKnown = true → ∀ e ∈ es,
      e.Readable Repl.idle.machine.objectText := by
    intro es hall e he
    have he := List.all_eq_true.mp hall e he
    cases e with
    | procedure n home =>
      simp only [isKnown, Bool.and_eq_true, beq_iff_eq] at he
      refine ⟨hnames (List.contains_iff_mem.mp he.1), ?_, by rintro _ ⟨⟩⟩
      rw [NameEntry.home, he.2]
      exact hnames (by simp)
    | _ => cases he
  constructor
  · obtain ⟨server', entries, hreach, hpending, hasked, hentries⟩ :=
      (autodoc_loopback (n := 17) Repl.reachable_idle hpending
        (Repl.connect_of_some hconnection) hserves (by decide) hs (hread hknown) hqueue).1 hframed
    refine ⟨server', entries, hreach, hpending, hasked, hentries.trans ?_⟩
    have htexts := congrArg (List.map fun p => (Part.text p.1, Part.text p.2)) hfound
    rwa [List.map_map, List.map_map] at htexts
  · obtain ⟨f, hf, hname⟩ := Option.map_eq_some_iff.mp hfoundPrompt
    exact (autodoc_loopback (n := 17) Repl.reachable_idle hpending
      (Repl.connect_of_some hconnection) hserves (by decide) hsPrompt (hread hknownPrompt)
      hqueue).2.2 hline ⟨f, hf, [], by rw [hname]; rfl, by simp⟩

end Session

end LiveScheme
