import LiveScheme.Buffer.Index
import LiveScheme.Datum.Described
import LiveScheme.Datum.Printer
import LiveScheme.Datum.Reader

/-!
# Editor commands

A command is a verb with arguments that are program text already; it is sent as one expression
for the server. File names and module names are quoted on the way. Requests that the server cannot
answer become one that it answers with nothing.
-/

namespace LiveScheme

structure Command where
  verb : String
  args : List (Option String)
deriving DecidableEq, Repr

/-- The buffer that a command is about, and the offset of the cursor if it is known. -/
structure Cursor where
  text : String
  offset : Option Int

def Cursor.module? (c : Cursor) : Option String :=
  let cs := c.text.toList
  (Buffer.moduleAt cs ((c.offset.getD cs.length).toNat)).map String.ofList

namespace Command

def escapeChar (c : Char) : List Char :=
  if c = '\\' then ['\\', '\\']
  else if c = '\x22' then ['\\', '\x22']
  else if c = '\n' then ['\\', 'n']
  else [c]

/-- The text as a string of the language. -/
def quoteText (text : String) : String :=
  String.ofList ('\x22' :: text.toList.flatMap escapeChar ++ ['\x22'])

/-- A module name as an expression: a symbol or a list is quoted, any other text becomes a string.
-/
def moduleText (name : Option String) : Except Fault String :=
  match name with
  | none => .ok "#f"
  | some text =>
    if text.isEmpty then .ok "#f"
    else match Datum.readOne text with
      | .error (.fault f) => .error f
      | .error _ => .ok (quoteText text)
      | .ok d =>
        match d with
        | .sym _ | .list _ | .vector _ => .ok ("'" ++ d.write)
        | _ => .ok (quoteText text)

def noValues : String := "(geiser:no-values)"

def unsupported : List String := [
  "no-values", "symbol-location", "module-location", "completions", "callers", "callees",
  "generic-methods"]

/-- A missing form is written as the name of nothing. -/
def formText (form : Option String) : String := form.getD "None"

def evalText (home form : Option String) : Except Fault String := do
  return "(geiser:eval " ++ (← moduleText home) ++ " '" ++ formText form ++ ")"

def autodocText (args : List (Option String)) (cursor : Option Cursor) : Except Fault String := do
  let home := cursor.bind Cursor.module?
  let names := (args.filterMap id).filter (!·.isEmpty)
  let target ← match home with
    | some name => moduleText (some name)
    | none => pure "(current-module)"
  return "(geiser:autodoc '(" ++ " ".intercalate names ++ ") " ++ target ++ ")"

def plainText (verb : String) (args : List (Option String)) : String :=
  "(geiser:" ++ verb ++ String.join ((args.filterMap id).map (" " ++ ·)) ++ ")"

/-- The expression for a command. -/
def expression (c : Command) (cursor : Option Cursor) : Except Fault String :=
  if c.verb = "eval" || c.verb = "compile" then
    match c.args with
    | [] => .error (.badCommand "eval needs a form")
    | [form] => evalText none form
    | home :: form :: _ => evalText home form
  else if c.verb = "load-file" || c.verb = "compile-file" then
    match c.args with
    | some file :: _ => .ok ("(geiser:load-file " ++ quoteText file ++ ")")
    | _ => .error (.badCommand (c.verb ++ " needs a file name"))
  else if c.verb = "autodoc" then autodocText c.args cursor
  else if unsupported.contains c.verb then .ok noValues
  else .ok (plainText c.verb c.args)

/-- The first request of a connection: to log it, or to do nothing. -/
def handshake (logFile : Option String) : String :=
  match logFile.filter (!·.isEmpty) with
  | some path => "(geiser:start-logging " ++ quoteText path ++ ")"
  | none => "(newline)"

def enterModule (name : String) : String := "(select-module " ++ name ++ ")"

def importModule (name : String) : String := "(import " ++ name ++ ")"

def exitText : String := "(exit 0)"

def versionText : String := "(version)"

/-- Drops a prompt from the start of a line: a word without `>` and the mark after it. -/
def dropPrompt (line : List Char) : List Char :=
  match line.dropWhile fun c => !(Text.isBlank c || c == '>') with
  | '>' :: ' ' :: rest => rest
  | _ => line

end Command

end LiveScheme
