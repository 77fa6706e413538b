import LiveScheme.Datum.Described
import LiveScheme.Datum.Printer
import LiveScheme.Disk
import LiveScheme.Error
import LiveScheme.Machine.Table
import LiveScheme.Version

/-!
# The machine

The state of a runtime: its modules, the frames of bindings that procedure calls and binding forms
have made, its closures, the editor connections, what was printed, and the files it sees. A scope
is the list of frames around an expression, innermost first, and the module around them.
-/

namespace LiveScheme

structure Scope where
  frames : List Nat
  home : Nat
deriving DecidableEq, Repr

def Scope.ofModule (id : Nat) : Scope := ⟨[], id⟩

def Scope.inner (s : Scope) (frame : Nat) : Scope := { s with frames := frame :: s.frames }

/-- Parameters as written; those that are no symbols make every call fail. -/
structure Formals where
  required : List Value
  rest : Option String

structure Closure where
  name : Option String
  formals : Formals
  body : Value
  scope : Scope
  doc : String

structure Module where
  name : String
  vars : Table Value
  exports : List String
  imports : List Nat
  expanders : Table Keyword

def Module.fresh (name : String) (imports : List Nat) : Module := ⟨name, [], [], imports, []⟩

instance : Inhabited Module := ⟨Module.fresh "" []⟩

/-- The state of one editor connection. -/
structure Connection where
  loadPath : List String
  logFile : Option String

instance : Inhabited Connection := ⟨⟨[], none⟩⟩

/-- What was written to the two ports. While output is captured, everything goes to the innermost
capture, which is the first. -/
structure Console where
  out : String
  err : String
  captures : List String

namespace Console

def empty : Console := ⟨"", "", []⟩

def write (c : Console) (p : Port) (text : String) : Console :=
  match c.captures, p with
  | inner :: outer, _ => { c with captures := (inner ++ text) :: outer }
  | [], .output => { c with out := c.out ++ text }
  | [], .error => { c with err := c.err ++ text }

end Console

structure Machine where
  version : String
  keywordsAreValues : Bool
  modules : Array Module
  frames : Array (Table Value)
  closures : Array Closure
  connections : Array Connection
  current : Nat
  nextTag : Nat
  console : Console
  disk : Disk

/-- The outcome of a search along imports; it is endless when modules import each other and none
of them has what is sought. -/
inductive Search
  | found (id : Nat)
  | absent
  | endless
deriving DecidableEq, Repr

def Search.firstOf (f : Nat → Search) : List Nat → Search
  | [] => .absent
  | id :: rest =>
    match f id with
    | .absent => firstOf f rest
    | outcome => outcome

/-- Where a name is bound. -/
inductive Binding
  | frame (id : Nat)
  | home (id : Nat)
  | absent
  | endless
deriving DecidableEq, Repr

namespace Machine

def schemeId : Nat := 0

def defaultId : Nat := 1

def module (m : Machine) (id : Nat) : Module := m.modules.getD id default

def frame (m : Machine) (id : Nat) : Table Value := m.frames.getD id []

def findModule? (m : Machine) (name : String) : Option Nat :=
  m.modules.findIdx? (·.name == name)

/-- Searches a module and then the modules it imports that export the name, depth first. -/
def searchFrom (m : Machine) (owns : Module → Bool) (name : String) : Nat → Nat → Search
  | 0, _ => .endless
  | depth + 1, id =>
    if owns (m.module id) then .found id
    else Search.firstOf
      (fun i =>
        if (m.module i).exports.contains name then searchFrom m owns name depth i else .absent)
      (m.module id).imports

/-- A search path without a repetition is no longer than the list of modules. -/
def search (m : Machine) (owns : Module → Bool) (name : String) (id : Nat) : Search :=
  m.searchFrom owns name (m.modules.size + 1) id

def searchVariable (m : Machine) (name : String) (id : Nat) : Search :=
  m.search (·.vars.has name) name id

def searchExpander (m : Machine) (name : String) (id : Nat) : Search :=
  m.search (·.expanders.has name) name id

def frameOf? (m : Machine) (name : String) (frames : List Nat) : Option Nat :=
  frames.find? fun id => (m.frame id).has name

/-- Whether the name is bound by a frame of the scope. -/
def isLocal (m : Machine) (name : String) (s : Scope) : Bool := (m.frameOf? name s.frames).isSome

def find (m : Machine) (name : String) (s : Scope) : Binding :=
  match m.frameOf? name s.frames with
  | some id => .frame id
  | none =>
    match m.searchVariable name s.home with
    | .found id => .home id
    | .absent => .absent
    | .endless => .endless

/-- Every name usable without qualification in a module: its own variables and expanders, then the
exports of the modules it imports. -/
def visibleNames (m : Machine) (id : Nat) : List String :=
  let own := (m.module id).vars.names ++ (m.module id).expanders.names
  (own ++ (m.module id).imports.flatMap fun i => (m.module i).exports).eraseDups

def closureName (m : Machine) (id : Nat) : String :=
  match m.closures[id]? with
  | some c =>
    match c.name with
    | some name => if name.isEmpty then "#f" else name
    | none => "#f"
  | none => "#f"

/-- The text of an object; several values have none of their own. -/
def objectText (m : Machine) : Object → Option String
  | .void => some "#void"
  | .several _ => none
  | .closure id => some ("#[closure " ++ m.closureName id ++ "]")
  | .primitive p => some ("#[primitive " ++ p.name ++ "]")
  | .keyword k => some ("#[syntax " ++ k.name ++ "]")
  | .space id => some ("#[module " ++ (m.module id).name ++ "]")
  | .port .output => some "#[output-port stdout]"
  | .port .error => some "#[output-port stderr]"

def write (m : Machine) (v : Value) : String := String.ofList (v.chars m.objectText true)

def display (m : Machine) (v : Value) : String := String.ofList (v.chars m.objectText false)

def describe (m : Machine) (v : Value) : String := String.ofList (v.described m.objectText)

def label (m : Machine) (v : Value) : String := String.ofList (v.label m.objectText)

/-- The registry name that a value stands for; none when it is no module name. -/
def moduleName? (m : Machine) (v : Value) : Option String :=
  match v with
  | .space id => some (m.module id).name
  | .sym name => some name
  | .str _ text => some text
  | .char c => some (String.singleton c)
  | .list _ (x :: rest) | .vector _ (x :: rest) =>
    some (String.ofList (Text.joinWith ['/'] ((x :: rest).map (·.label m.objectText))))
  | _ => none

/-- The module that a value names, if there is one. -/
def moduleFor? (m : Machine) (v : Value) : Option Nat :=
  match v with
  | .space id => some id
  | v => (m.moduleName? v).bind m.findModule?

/-- The module that every other one imports, with every special form and built-in procedure. Where
keywords are values the special forms are variables of it. -/
def baseModule (keywordsAreValues : Bool) : Module :=
  let forms : Table Keyword := SpecialForm.all.map fun f => (f.name, Keyword.form f)
  let procedures : Table Value :=
    Builtin.all.map fun b => (b.name, .primitive (.builtin b))
  let vars : Table Value :=
    if keywordsAreValues then forms.map (fun f => (f.1, .keyword f.2)) ++ procedures
    else procedures
  let expanders : Table Keyword := if keywordsAreValues then [] else forms
  ⟨"SCHEME", vars, vars.names ++ expanders.names, [], expanders⟩

/-- A new runtime: the base module and the module that programs start in. -/
def initial (version : String) (keywordsAreValues : Bool) (disk : Disk) : Machine where
  version := version
  keywordsAreValues := keywordsAreValues
  modules := #[baseModule keywordsAreValues, Module.fresh "stklos" [schemeId]]
  frames := #[]
  closures := #[]
  connections := #[]
  current := defaultId
  nextTag := 0
  console := .empty
  disk := disk

/-- A new runtime of the given version. From version 1.70 on keywords are values. -/
def fresh (version : String) (disk : Disk) : Except Fault Machine := do
  let parts ← Version.parse version
  return initial version (Version.order parts [1, 70] != .lt) disk

end Machine

end LiveScheme
