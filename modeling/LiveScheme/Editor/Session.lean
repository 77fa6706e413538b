import LiveScheme.Editor.Command
import LiveScheme.Editor.Decode
import LiveScheme.Repl.Basic
import LiveScheme.Version

/-!
# Editor sessions

A session sends one request at a time and reads the lines of its reply up to a blank line. It talks
to a server in its own process, or over two streams. A request that the reader cannot finish is
refused before it is sent.
-/

namespace LiveScheme

/-- The other side of a session: a server with the lines that it wrote and nobody has read, or a
stream of lines to read and a stream to write to. -/
inductive Transport
  | loopback (server : Repl) (lines : List (List Char))
  | streams (incoming : List (List Char)) (sent : String) (isOpen : Bool)

abbrev Dialogue := EStateM EditorStop Transport

namespace Dialogue

def fail {α : Type} (e : EditorError) : Dialogue α := throw (.error e)

def ofDecoded {α : Type} : Decoded α → Dialogue α
  | .ok a => pure a
  | .error e => throw e

def ofFault {α : Type} : Except Fault α → Dialogue α
  | .ok a => pure a
  | .error f => throw (.fault f)

/-- How a server that stopped shows on the editor's side. -/
def editorStop : Stop → EditorStop
  | .error e => .error (.incompleteRequest e.message)
  | .fault f => .fault f
  | .exit code => .error (.exited code.text)
  | .endless => .endless

def closeServer (server : Repl) : Repl :=
  match Repl.disconnect server with
  | .ok _ r | .error _ r => r

/-- Sends a request to a server in this process. A server that exits is closed, and input that it
would have to wait for is dropped. -/
def sendLoopback (g : Engine) (server : Repl) (lines : List (List Char)) (text : String) :
    Dialogue Unit := do
  match Repl.handle g (text ++ "\n") server with
  | .ok out server =>
    if server.isWaiting then
      set (Transport.loopback { server with pending := "" } lines)
      fail (.incompleteRequest (Text.quotedString text))
    else set (Transport.loopback server (lines ++ Text.lines out.toList))
  | .error (.exit code) server =>
    set (Transport.loopback (closeServer server) lines)
    fail (.exited code.text)
  | .error stop server =>
    set (Transport.loopback server lines)
    throw (editorStop stop)

def send (g : Engine) (text : String) : Dialogue Unit := do
  match ← get with
  | .loopback server lines => sendLoopback g server lines text
  | .streams incoming sent isOpen =>
    if isOpen then set (Transport.streams incoming (sent ++ text ++ "\n") true)
    else fail .transportClosed

/-- The next line; empty at the end. -/
def readLine : Dialogue (List Char) := do
  match ← get with
  | .loopback server (line :: rest) =>
    set (Transport.loopback server rest)
    return line
  | .streams (line :: rest) sent true =>
    set (Transport.streams rest sent true)
    return line
  | .streams _ _ false => throw (.fault .closedReader)
  | _ => return []

def closeTransport : Dialogue Unit := do
  match ← get with
  | .loopback server lines => set (Transport.loopback (closeServer server) lines)
  | .streams incoming sent _ => set (Transport.streams incoming sent false)

def lineCount : Transport → Nat
  | .loopback _ lines => lines.length
  | .streams incoming _ _ => incoming.length

/-- Collects the lines of a reply; those read so far are in `lines`, last one first. -/
def collect (lines : List (List Char)) : Nat → Dialogue String
  | 0 => fail .connectionClosed
  | count + 1 => do
    let line ← readLine
    if line.isEmpty then fail .connectionClosed
    else
      let line := Command.dropPrompt line
      if !Text.allBlank line then collect (line :: lines) count
      else if lines.isEmpty then collect lines count
      else return String.ofList (Text.dropEnd (· == '\n') lines.reverse.flatten)

/-- The next reply. Blank lines before it are left over from requests that printed nothing. -/
def readReply : Dialogue String := do collect [] (lineCount (← get) + 1)

/-- Sends a request and reads its reply. -/
def request (g : Engine) (text : String) : Dialogue String := do
  match Datum.readAll text with
  | .error (.incomplete gap) => fail (.incompleteRequest gap.message)
  | .error (.fault f) => throw (.fault f)
  | _ =>
    send g text
    readReply

def command (g : Engine) (verb : String) (args : List (Option String)) (cursor : Option Cursor) :
    Dialogue String := do
  request g (← ofFault (Command.expression ⟨verb, args⟩ cursor))

/-- The result of `x`, or that of `otherwise` on an error of the protocol. -/
def onProtocolError {α : Type} (x : Dialogue α) (otherwise : EditorError → Dialogue α) :
    Dialogue α := fun t =>
  match x t with
  | .error (.error e) t =>
    if e.category = .protocol then otherwise e t else .error (.error e) t
  | outcome => outcome

end Dialogue

namespace Session

open Dialogue

/-- Greets the server; only a request for a log has a reply to wait for. -/
def start (g : Engine) (logFile : Option String) : Dialogue Unit := do
  let text := Command.handshake logFile
  match logFile.filter (!·.isEmpty) with
  | some _ => do
    let _ ← request g text
  | none => send g text

def version (g : Engine) : Dialogue String := do
  ofDecoded (Decode.string (← request g Command.versionText))

def checkVersion (g : Engine) (least : String) : Dialogue String := do
  let reported ← version g
  let found ← ofFault (Version.parse reported)
  let need ← ofFault (Version.parse least)
  if Version.order found need == .lt then fail (.unsupported reported least)
  else return reported

def eval (g : Engine) (form : Option String) (home : Option String) : Dialogue EvalReply :=
  onProtocolError
    (do ofDecoded (Decode.evalReply (← command g "eval" [home, form] none)))
    fun e => return .error e.message

def loadFile (g : Engine) (name : String) : Dialogue EvalReply := do
  ofDecoded (Decode.evalReply (← command g "load-file" [some name] none))

def addToLoadPath (g : Engine) (directory : String) : Dialogue EvalReply := do
  ofDecoded (Decode.evalReply
    (← command g "add-to-load-path" [some (Command.quoteText directory)] none))

def completions (g : Engine) (stem : String) : Dialogue (List String) := do
  let form := "(geiser:completions " ++ Command.quoteText stem ++ ")"
  match ← eval g (some form) none with
  | .error _ => return []
  | reply => ofDecoded (Decode.strings reply.value)

def moduleCompletions (g : Engine) (stem : String) : Dialogue (List String) := do
  ofDecoded (Decode.strings
    (← command g "module-completions" [some (Command.quoteText stem)] none))

def moduleExports (g : Engine) (home : Option String) : Dialogue ModuleExports := do
  let name ← ofFault (Command.moduleText home)
  ofDecoded (Decode.moduleExports (← command g "module-exports" [some name] none))

def autodoc (g : Engine) (names : List String) (cursor : Option Cursor) :
    Dialogue (List AutodocEntry) := do
  let args := names.map fun name => some (Command.quoteText name)
  ofDecoded (Decode.autodoc (← command g "autodoc" args cursor))

def symbolDocumentation (g : Engine) (name : String) (home : Option String) :
    Dialogue (Option SymbolDoc) := do
  let args ← match home with
    | none => pure [some (Command.quoteText name)]
    | some home => do
      pure [some (Command.quoteText name), some (← ofFault (Command.moduleText (some home)))]
  ofDecoded (Decode.symbolDocumentation (← command g "symbol-documentation" args none))

def expansionOf (reply : String) : Decoded String := do
  match Decode.errorOf (← Decode.parse reply) with
  | some (.error message) => return message
  | _ => Decode.string reply

/-- The expansion of a form, or the text of what went wrong. A reply of the wrong shape is an error.
-/
def macroexpand (g : Engine) (form : String) (everything : Bool) : Dialogue String := do
  let args := [some ("'" ++ form), some (if everything then "#t" else "#f")]
  let asked : Dialogue (Except String String) := do
    return .ok (← command g "macroexpand" args none)
  match ← onProtocolError asked fun e => return .error e.message with
  | .ok text => ofDecoded (expansionOf text)
  | .error message => return message

/-- Asks the server to exit and closes the connection. -/
def close (g : Engine) : Dialogue Unit := do
  fun t =>
    match send g Command.exitText t with
    | .error (.error e) t => if e.category = .closed then .ok () t else .error (.error e) t
    | outcome => outcome
  closeTransport

end Session

end LiveScheme
