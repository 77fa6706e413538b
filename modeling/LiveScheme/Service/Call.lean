import LiveScheme.Primitive.Arguments
import LiveScheme.Service.Connection
import LiveScheme.Service.Reply
import LiveScheme.Service.Signature

/-!
# Calling services

Every editor service on a list of arguments.
-/

namespace LiveScheme

namespace Service

/-- A string argument; messages describe any other value. -/
def textArg (s : Service) (v : Value) : Run String :=
  match v with
  | .str _ text => return text
  | v => do Run.fail (.badArgument s.name "string" (← Run.described v))

def count (s : Service) (low high : Nat) (args : List Value) : Run Unit :=
  Primitive.checkCount s.name low (some high) args

def newTexts : List String → Run (List Value)
  | [] => return []
  | text :: rest => do
    let v ← Run.newText text
    return v :: (← newTexts rest)

/-- Evaluates a form in a module and answers what happened. -/
def evalReply (g : Engine) (home form : Value) : Run Reply := do
  let id := Introspection.targetModule (← get) (some home)
  Reply.capture (g.eval form (.ofModule id))

def loadReply (g : Engine) (connection : Nat) (name : String) : Run Reply := do
  match (← Run.connection connection).resolve (← get).disk name with
  | some path =>
    Reply.capture do
      g.load path none
      return .void
  | none => return .error ("cannot find `" ++ name ++ "' in the load path")

def addPathReply (connection : Nat) (path : String) : Run Reply :=
  Reply.capture do
    if (← get).disk.hasDirectory path then
      Run.modifyConnection connection (·.addPath path)
      return .bool true
    else return .bool false

/-- The printed expansion of a form, or the reply to an error. -/
def expansion (g : Engine) (form : Value) (everything : Bool) : Run Value := do
  let s := Scope.ofModule (← get).current
  match ← Run.attempt (g.expand form s everything) with
  | .ok v => do Run.newText (← Run.text v)
  | .error (.error e) => (Reply.error e.message).value
  | .error stop => throw stop

def call (g : Engine) (connection : Nat) (args : List Value) (s : Service) :
    Run Value := do
  let first := args.headD .void
  match s with
  | .eval =>
    s.count 2 2 args
    (← evalReply g first (args.getD 1 .void)).value
  | .loadFile =>
    s.count 1 1 args
    (← loadReply g connection (← s.textArg first)).value
  | .addToLoadPath =>
    s.count 1 1 args
    (← addPathReply connection (← s.textArg first)).value
  | .noValues => (Reply.result [""] "").value
  | .completions =>
    s.count 1 1 args
    let stem ← s.textArg first
    Run.newList (← newTexts (Introspection.completions (← get) stem))
  | .moduleCompletions =>
    s.count 1 1 args
    let stem ← s.textArg first
    Run.newList (← newTexts (Introspection.moduleCompletions (← get) stem))
  | .moduleExports =>
    s.count 1 1 args
    Run.ofDatum (← Introspection.moduleExports first)
  | .autodoc =>
    s.count 1 2 args
    Introspection.autodoc first args[1]?
  | .symbolDocumentation =>
    s.count 1 2 args
    Introspection.symbolDocumentation first args[1]?
  | .macroexpand =>
    s.count 1 2 args
    expansion g first (args[1]?.any (!·.isFalse))
  | .startLogging =>
    s.count 1 1 args
    Run.startLogging connection (← s.textArg first)
    return .bool true

end Service

end LiveScheme
