import LiveScheme.Machine.Basic

/-!
# Running on a machine

An evaluation changes the machine and ends with a result, an error, a fault, or an exit; one that
exhausts its allowance of steps, or searches for a name in a circle, is endless. Changes made
before an error are kept.
-/

namespace LiveScheme

/-- What a program gives to `exit`; a truth value counts as one or zero. -/
inductive ExitCode
  | int (n : Int)
  | flag (b : Bool)
deriving DecidableEq, Repr

namespace ExitCode

def ofValue : Value → ExitCode
  | .int n => int n
  | .bool b => flag b
  | _ => int 0

def number : ExitCode → Int
  | int n => n
  | flag b => if b then 1 else 0

def text : ExitCode → String
  | int n => toString n
  | flag b => if b then "True" else "False"

end ExitCode

inductive Stop
  | error (e : SchemeError)
  | fault (f : Fault)
  | exit (code : ExitCode)
  | endless
deriving Repr

abbrev Run := EStateM Stop Machine

namespace Run

def fail {α : Type} (e : SchemeError) : Run α := throw (.error e)

def faulty {α : Type} (f : Fault) : Run α := throw (.fault f)

def ofFault {α : Type} : Except Fault α → Run α
  | .ok a => pure a
  | .error f => faulty f

def ofRead {α : Type} : Except ReadError α → Run α
  | .ok a => pure a
  | .error (.fault f) => faulty f
  | .error e => fail (.read e)

/-- Runs `x` and then `after`, however `x` ends. -/
def ensuring {α : Type} (x : Run α) (after : Machine → Machine) : Run α := fun m =>
  match x m with
  | .ok a m => .ok a (after m)
  | .error e m => .error e (after m)

/-- Runs `x` and answers how it ended. -/
def attempt {α : Type} (x : Run α) : Run (Except Stop α) := fun m =>
  match x m with
  | .ok a m => .ok (.ok a) m
  | .error e m => .ok (.error e) m

def newTag : Run Identity :=
  modifyGet fun m => (.fresh m.nextTag, { m with nextTag := m.nextTag + 1 })

def newList (items : List Value) : Run Value := return .list (← newTag) items

def newVector (items : List Value) : Run Value := return .vector (← newTag) items

def newText (text : String) : Run Value := return .str (← newTag) text

def newImproper (items : List Value) (tail : Value) : Run Value :=
  return .improper (← newTag) items tail

/-- The items in front of the tail, as a new object. -/
def newAttached (items : List Value) (tail : Value) : Run Value :=
  return Node.attach (← newTag) items tail

def ofNumber : Number → Run Value
  | .int n => pure (.int n)
  | .real x => return .real (← newTag) x

def text (v : Value) : Run String := return (← get).write v

def displayed (v : Value) : Run String := return (← get).display v

def described (v : Value) : Run String := return (← get).describe v

def label (v : Value) : Run String := return (← get).label v

def newFrame (bindings : Table Value) : Run Nat :=
  modifyGet fun m => (m.frames.size, { m with frames := m.frames.push bindings })

def newClosure (c : Closure) : Run Value :=
  modifyGet fun m => (.closure m.closures.size, { m with closures := m.closures.push c })

def modifyModule (id : Nat) (f : Module → Module) : Run Unit :=
  modify fun m => { m with modules := m.modules.modify id f }

def modifyFrame (id : Nat) (f : Table Value → Table Value) : Run Unit :=
  modify fun m => { m with frames := m.frames.modify id f }

/-- Binds a name in the innermost frame, or in the module when there is none. -/
def define (name : String) (v : Value) (s : Scope) : Run Unit :=
  match s.frames with
  | frame :: _ => modifyFrame frame (·.put name v)
  | [] => modifyModule s.home fun m => { m with vars := m.vars.put name v }

def lookup (name : String) (s : Scope) : Run Value := do
  let m ← get
  match m.find name s with
  | .frame id => return ((m.frame id).get? name).getD .void
  | .home id => return ((m.module id).vars.get? name).getD .void
  | .absent => fail (.unboundIn name (m.module s.home).name)
  | .endless => throw .endless

def assign (name : String) (v : Value) (s : Scope) : Run Unit := do
  match (← get).find name s with
  | .frame id => modifyFrame id (·.put name v)
  | .home id => modifyModule id fun m => { m with vars := m.vars.put name v }
  | .absent => fail (.unbound name)
  | .endless => throw .endless

/-- The value that a module sees under a name. -/
def valueIn? (name : String) (id : Nat) : Run (Option (Value × Nat)) := do
  let m ← get
  match m.searchVariable name id with
  | .found home => return ((m.module home).vars.get? name).map fun v => (v, home)
  | .absent => return none
  | .endless => throw .endless

/-- The keyword that a name denotes in a module. -/
def keywordIn? (name : String) (id : Nat) : Run (Option Keyword) := do
  let m ← get
  if m.keywordsAreValues then
    match ← valueIn? name id with
    | some (.keyword k, _) => return some k
    | _ => return none
  else
    match m.searchExpander name id with
    | .found home => return (m.module home).expanders.get? name
    | .absent => return none
    | .endless => throw .endless

/-- The keyword that the head of a form denotes; a local binding hides keywords. -/
def keyword? (head : Value) (s : Scope) : Run (Option Keyword) := do
  match head with
  | .sym name => if (← get).isLocal name s then return none else keywordIn? name s.home
  | _ => return none

def defineKeyword (name : String) (k : Keyword) (id : Nat) : Run Unit := do
  if (← get).keywordsAreValues then
    modifyModule id fun m => { m with vars := m.vars.put name (.keyword k) }
  else modifyModule id fun m => { m with expanders := m.expanders.put name k }

def closure? (v : Value) : Run (Option Closure) := do
  match v with
  | .closure id => return (← get).closures[id]?
  | _ => return none

/-- Names a closure that has no name yet. -/
def nameClosure (v : Value) (name : String) : Run Unit :=
  match v with
  | .closure id =>
    modify fun m => { m with closures := m.closures.modify id fun c =>
      { c with name := c.name <|> some name } }
  | _ => pure ()

def writeTo (p : Port) (text : String) : Run Unit :=
  modify fun m => { m with console := m.console.write p text }

def moduleName (v : Value) : Run String := do
  match (← get).moduleName? v with
  | some name => return name
  | none => fail (.badModuleName (← described v))

def resolveModule (v : Value) : Run Nat := do
  match (← get).moduleFor? v with
  | some id => return id
  | none => fail (.noModule (← moduleName v))

/-- The module of the given name; a new one imports the base module. -/
def makeModule (name : String) : Run Nat := do
  match (← get).findModule? name with
  | some id => return id
  | none =>
    modifyGet fun m => (m.modules.size,
      { m with modules := m.modules.push (Module.fresh name [Machine.schemeId]) })

def addName (known : List String) (name : String) : List String :=
  if known.contains name then known else known ++ [name]

def exportNames (id : Nat) (names : List String) : Run Unit :=
  modifyModule id fun m => { m with exports := names.foldl addName m.exports }

def importModule (id other : Nat) : Run Unit :=
  if id = other then pure ()
  else modifyModule id fun m =>
    { m with imports := if m.imports.contains other then m.imports else m.imports ++ [other] }

/-- Runs `x` with another current module and then returns to the present one. -/
def within {α : Type} (id : Nat) (x : Run α) : Run α := do
  let previous := (← get).current
  modify fun m => { m with current := id }
  ensuring x fun m => { m with current := previous }

/-- What `x` printed, next to how it ended; nothing of it reaches the ports. -/
def capturing {α : Type} (x : Run α) : Run (Except Stop α × String) := do
  modify fun m => { m with console := { m.console with captures := "" :: m.console.captures } }
  let outcome ← attempt x
  let printed := (← get).console.captures.headD ""
  modify fun m => { m with console := { m.console with captures := m.console.captures.drop 1 } }
  return (outcome, printed)

mutual

/-- A datum as a value, with new identities. -/
def ofDatum : Datum → Run Value
  | .bool b => pure (.bool b)
  | .int n => pure (.int n)
  | .real x => return .real (← newTag) x
  | .str text => return .str (← newTag) text
  | .char c => pure (.char c)
  | .sym name => pure (.sym name)
  | .list items => do newList (← ofData items)
  | .vector items => do newVector (← ofData items)
  | .improper items tail => do
    let items ← ofData items
    newImproper items (← ofDatum tail)
  | .object kind _ => kind.elim

def ofData : List Datum → Run (List Value)
  | [] => return []
  | d :: rest => do
    let v ← ofDatum d
    return v :: (← ofData rest)

end

end Run

end LiveScheme
