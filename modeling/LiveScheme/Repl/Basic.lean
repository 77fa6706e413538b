import LiveScheme.Evaluator.Basic

/-!
# The read-eval-print server

Input is kept until it ends a form, and then every form is answered with what it printed, its
values one a line, and a blank line. A form that fails is answered with the text of its error. One
machine lives as long as the server; a connection lives from its opening to its closing.
-/

namespace LiveScheme

structure Repl where
  machine : Machine
  loadPath : List String
  logFile : Option String
  promptText : String
  connection : Option Nat
  pending : String

abbrev Serving := EStateM Stop Repl

namespace Repl

def defaultPrompt : String := "stklos> "

def onMachine {α : Type} (x : Run α) : Serving α := fun r =>
  match x r.machine with
  | .ok a m => .ok a { r with machine := m }
  | .error e m => .error e { r with machine := m }

/-- Sets up a connection unless there is one. -/
def connect : Serving Unit := do
  let r ← get
  match r.connection with
  | some _ => pure ()
  | none => do
    let id ← onMachine do
      let id ← Run.openConnection r.loadPath r.logFile
      Run.installServices id
      return id
    modify fun r => { r with connection := some id }

def disconnect : Serving Unit := do
  match (← get).connection with
  | some id => onMachine (Run.closeLog id)
  | none => pure ()
  modify fun r => { r with connection := none, pending := "" }

/-- A server of the given machine, with its first connection. -/
def start (machine : Machine) (loadPath : List String) (logFile : Option String)
    (promptText : String) : Except Stop Repl :=
  match connect.run ⟨machine, loadPath, logFile, promptText, none, ""⟩ with
  | .ok _ r => .ok r
  | .error e _ => .error e

/-- Whether a form is incomplete. -/
def isWaiting (r : Repl) : Bool := !Text.allBlank r.pending.toList

/-- Drops input that will not be completed. -/
def discard : Serving String := modifyGet fun r => (r.pending, { r with pending := "" })

def currentModule (r : Repl) : String := (r.machine.module r.machine.current).name

def linesOf (m : Machine) (values : List Value) : String :=
  String.join (values.map fun v => m.write v ++ "\n") ++ "\n"

/-- Answers a text, which is also logged. -/
def respond (request text : String) : Serving String := do
  match (← get).connection with
  | some id => onMachine (Run.logExchange id request text)
  | none => pure ()
  return text

/-- The reply to a form with the given values. -/
def reply (request : String) (values : List Value) : Serving String := do
  respond request (linesOf (← get).machine values)

def evalForm (g : Engine) (form : Datum) : Run (List Value × String) := do
  let e ← Run.ofDatum form
  let (outcome, printed) ← Run.capturing (g.eval e (.ofModule (← get).current))
  match outcome with
  | .ok v => return (v.spread, printed)
  | .error stop =>
    match Reply.messageOf? stop with
    | some message => return ([← (Reply.error message).value], printed)
    | none => throw stop

def answer (g : Engine) (request : String) (form : Datum) : Serving String := do
  let (values, printed) ← onMachine (evalForm g form)
  return printed ++ (← reply request values)

def answers (g : Engine) (request : String) : List Datum → Serving String
  | [] => return ""
  | form :: rest => do
    let here ← answer g request form
    return here ++ (← answers g request rest)

/-- Takes more input and answers every form that it completes. -/
def handle (g : Engine) (text : String) : Serving String := do
  connect
  let request := (← get).pending ++ text
  modify fun r => { r with pending := request }
  match Datum.readAll request with
  | .error (.incomplete _) => return ""
  | .error (.fault f) => throw (.fault f)
  | .error e =>
    modify fun r => { r with pending := "" }
    respond request ((Reply.error e.message).datum.write ++ "\n\n")
  | .ok forms =>
    modify fun r => { r with pending := "" }
    answers g request forms

/-- The prompt, when one is due before the next line. -/
def duePrompt (interactive : Bool) (r : Repl) : String :=
  if interactive && !r.isWaiting then r.promptText else ""

/-- Serves the lines of a connection and answers everything written, however the connection ends. A
prompt is written whenever the server waits for a new form. -/
def serveLines (g : Engine) (interactive : Bool) (written : String) :
    List (List Char) → Repl → String × EStateM.Result Stop Repl Unit
  | lines, r =>
    let written := written ++ r.duePrompt interactive
    match lines with
    | [] => (written, disconnect r)
    | line :: rest =>
      match handle g (String.ofList line) r with
      | .ok text r => serveLines g interactive (written ++ text) rest r
      | .error e r =>
        match disconnect r with
        | .ok _ r => (written, .error e r)
        | .error e r => (written, .error e r)

/-- Serves one connection until the input ends or the program exits. -/
def serve (g : Engine) (interactive : Bool) (input : String) (r : Repl) :
    String × EStateM.Result Stop Repl Unit :=
  match connect r with
  | .ok _ r => serveLines g interactive "" (Text.feedLines input.toList) r
  | .error e r => ("", .error e r)

end Repl

end LiveScheme
