import LiveScheme.Buffer.Line
import LiveScheme.Editor.Path
import LiveScheme.Editor.Session
import LiveScheme.Settings

/-!
# Editing assistance

An assistant keeps the text and the index of every open document, and one session with a server in
its own process, begun when it is first needed. Questions about a place in a document are answered
from both: the word there is documented, completed or shown with its parameters. Errors between
the session and its server leave a question without an answer.
-/

namespace LiveScheme

structure Document where
  text : String
  index : Buffer.Index

namespace Document

def ofText (text : String) : Document := ⟨text, .ofText text.toList⟩

def chars (d : Document) : List Char := d.text.toList

def offset (d : Document) (p : Buffer.Position) : Nat :=
  (Buffer.offsetOf d.chars p.line p.column).toNat

def before (d : Document) (p : Buffer.Position) : List Char := Buffer.linePrefix d.chars p

end Document

/-- What a document is warned about; a warning stands at its first character. -/
inductive Warning
  | unmatchedParentheses
  | unmatchedQuote
deriving DecidableEq, Repr

namespace Warning

def message : Warning → String
  | unmatchedParentheses => "Unmatched parentheses detected"
  | unmatchedQuote => "Unmatched quote detected"

def source : String := "geiser-stklos-ls"

def ofIndex (idx : Buffer.Index) : List Warning :=
  (if idx.balance ≠ 0 then [unmatchedParentheses] else []) ++
    (if idx.unmatchedQuote then [unmatchedQuote] else [])

end Warning

/-- What the assistant tells the editor without being asked: the warnings of a document, an error
for the user, or an error for the log. -/
inductive Notice
  | warnings (uri : String) (found : List Warning)
  | shown (text : String)
  | logged (text : String)
deriving DecidableEq, Repr

inductive ItemKind
  | function
  | module
  | variable
deriving DecidableEq, Repr

def ItemKind.ofDefinition : Buffer.DefinitionKind → ItemKind
  | .function | .expander => .function
  | .space => .module
  | .variable => .variable

structure CallHelp where
  label : String
  parameters : List String
deriving DecidableEq, Repr

structure Assistant where
  settings : Settings
  disk : Disk
  documents : List (String × Document)
  session : Option Transport
  notices : List Notice

/-- Actions of an assistant; one that ends without a result keeps what it changed. -/
abbrev Assisting := EStateM EditorStop Assistant

namespace Assistant

def start (settings : Settings) (disk : Disk) : Assistant := ⟨settings, disk, [], none, []⟩

def notify (n : Notice) : Assisting Unit :=
  modify fun a => { a with notices := a.notices ++ [n] }

def document? (uri : String) : Assisting (Option Document) := do
  return (← get).documents.lookup uri

/-- Takes the new text of a document. -/
def update (uri text : String) : Assisting Unit := do
  let doc := Document.ofText text
  modify fun a =>
    { a with documents := (uri, doc) :: a.documents.filter (·.1 != uri) }
  notify (.warnings uri (Warning.ofIndex doc.index))

def forget (uri : String) : Assisting Unit := do
  modify fun a => { a with documents := a.documents.filter (·.1 != uri) }
  notify (.warnings uri [])

/-! ## The session -/

def onTransport {α : Type} (t : Transport) (x : Dialogue α) : Assisting α := fun a =>
  match x t with
  | .ok v t => .ok v { a with session := some t }
  | .error e t => .error e { a with session := some t }

def newServer (settings : Settings) (disk : Disk) : Except EditorStop Repl := do
  let machine ← (Machine.fresh settings.runtimeVersion disk).mapError .fault
  (Repl.start machine settings.loadPath none Repl.defaultPrompt).mapError Dialogue.editorStop

/-- Begins a session: its server is greeted and its version checked. A session whose server is too
old stays. -/
def beginSession (g : Engine) : Assisting Transport := do
  let a ← get
  match newServer a.settings a.disk with
  | .error e => throw e
  | .ok server =>
    onTransport (.loopback server []) do
      Session.start g a.settings.logFile
      let _ ← Session.checkVersion g a.settings.leastVersion
      get

/-- Runs a dialogue in the session, beginning it first if there is none. -/
def converse {α : Type} (g : Engine) (x : Dialogue α) : Assisting α := do
  match (← get).session with
  | some t => onTransport t x
  | none => do onTransport (← beginSession g) x

/-- The result of an action, or that of `otherwise` on an error between the session and its server.
-/
def onError {α : Type} (x : Assisting α) (otherwise : EditorError → Assisting α) : Assisting α :=
  fun a =>
    match x a with
    | .error (.error e) a => otherwise e a
    | outcome => outcome

def ofFault {α : Type} : Except Fault α → Assisting α
  | .ok v => pure v
  | .error f => throw (.fault f)

/-- Loads a saved source file into the server and reports what went wrong. -/
def saved (g : Engine) (uri : String) : Assisting Unit := do
  let path := DocumentPath.ofIdentifier uri
  if path.isEmpty || !Settings.isSourceFile path then return
  let load : Assisting (List Notice) := do
    match ← converse g (Session.loadFile g path) with
    | .error message => return [.shown (path ++ ": " ++ message)]
    | .result _ _ => return []
  for notice in ← onError load fun e => return [.logged ("load failed: " ++ e.message)] do
    notify notice

/-! ## Questions -/

/-- The text that documents a name: its parameters, if it has any, above its description. -/
def describe (doc : SymbolDoc) : Except Fault String :=
  match doc.signature with
  | some entry =>
    if entry.hasArgs then do return (← entry.label) ++ "\n\n" ++ doc.docstring.shown
    else doc.docstring.requireText
  | none => doc.docstring.requireText

/-- The documentation of the word at a position. -/
def hover (g : Engine) (uri : String) (p : Buffer.Position) : Assisting (Option String) := do
  match ← document? uri with
  | none => return none
  | some d => do
    match ← ofFault (Buffer.wordAt d.chars p) with
    | (none, _) => return none
    | (some word, _) => do
      let home := (Buffer.moduleAt d.chars (d.offset p)).map String.ofList
      let ask := converse g (Session.symbolDocumentation g (String.ofList word) home)
      match ← onError ask fun _ => return none with
      | none => return none
      | some doc => return some (← ofFault (describe doc))

/-- The names that the document defines and that are not among the given ones. -/
def ownItems (idx : Buffer.Index) (seen : List String) : List (String × ItemKind) :=
  idx.symbols.filterMap fun d =>
    let name := String.ofList d.name
    if seen.contains name then none
    else some (name, if d.kind = .function then .function else .variable)

/-- Names of modules for a position inside an import. -/
def moduleItems (g : Engine) (stem : List Char) : Assisting (List (String × ItemKind)) := do
  let names ← converse g (Session.moduleCompletions g (String.ofList stem))
  return names.map (·, .module)

def nameItems (g : Engine) (before : List Char) : Assisting (List (String × ItemKind)) := do
  let names ← converse g (Session.completions g (String.ofList (Buffer.currentWord before)))
  return names.map (·, .function)

/-- The names that may complete the text before a position. The document's own names follow those of
the server, and stand alone when the server cannot be asked. -/
def completion (g : Engine) (uri : String) (p : Buffer.Position) :
    Assisting (List (String × ItemKind)) := do
  match ← document? uri with
  | none => return []
  | some d => do
    let before := d.before p
    match Buffer.moduleStem? before with
    | some stem => onError (moduleItems g stem) fun _ => return ownItems d.index []
    | none => do
      let items ← onError (nameItems g before) fun _ => return []
      return items ++ ownItems d.index (items.map (·.1))

def callHelp (entry : AutodocEntry) : Except Fault (Option CallHelp) :=
  if !entry.value.isAbsent then .ok none
  else if entry.hasArgs then do return some ⟨← entry.label, entry.args⟩
  else .ok (some ⟨"(" ++ entry.name.shown ++ " ...)", []⟩)

/-- The parameters of the procedure whose call encloses a position. -/
def signatureHelp (g : Engine) (uri : String) (p : Buffer.Position) :
    Assisting (Option CallHelp) := do
  match ← document? uri with
  | none => return none
  | some d => do
    match Buffer.callee? (d.before p) with
    | none => return none
    | some callee => do
      let cursor : Cursor := ⟨d.text, some (d.offset p)⟩
      let ask := converse g (Session.autodoc g [String.ofList callee] (some cursor))
      match ← onError ask fun _ => return [] with
      | [] => return none
      | entry :: _ => ofFault (callHelp entry)

/-- The definitions of a document, modules first. -/
def outline (uri : String) : Assisting (Option (List Buffer.Definition)) := do
  return (← document? uri).map fun d => d.index.modules ++ d.index.symbols

end Assistant

end LiveScheme
