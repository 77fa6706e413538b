import LiveScheme.Form.Control

/-!
# Module forms

Modules are made on first mention and their forms run with the module current. Names of standard
libraries that no module bears stand for the base module, which every module imports anyway.
-/

namespace LiveScheme.Form

/-- The names in a list of symbols. -/
def symbolNames (who : String) : List Value → Run (List String)
  | [] => return []
  | .sym name :: rest => return name :: (← symbolNames who rest)
  | v :: _ => do Run.fail (.badName who (← Run.described v))

def runIn (g : Engine) (id : Nat) (forms : List Value) : Run Unit :=
  Run.within id (g.runAll (.ofModule id) forms)

def defineModule (g : Engine) (_ : Scope) : List Value → Run Step
  | [] => arityError .defineModule
  | name :: forms => do
    let id ← Run.makeModule (← Run.moduleName name)
    runIn g id forms
    return .done .void

def selectModule (_ : Engine) (_ : Scope) : List Value → Run Step
  | [v] => do
    let name ← Run.moduleName v
    match (← get).findModule? name with
    | some id =>
      modify fun m => { m with current := id }
      return .done .void
    | none => Run.fail (.noModule name)
  | _ => arityError .selectModule

def exportNames (_ : Engine) (s : Scope) (items : List Value) : Run Step := do
  Run.exportNames s.home (← symbolNames "export" items)
  return .done .void

def libraryRoots : List String := ["scheme", "srfi", "stklos"]

/-- A list that begins with the name of a family of standard libraries. -/
def isStandardLibrary (v : Value) : Run Bool := do
  match v.elements? with
  | some (root :: _) => return libraryRoots.contains (← Run.label root)
  | _ => return false

def importInto (id : Nat) : List Value → Run Unit
  | [] => return ()
  | v :: rest => do
    let name ← Run.moduleName v
    match (← get).findModule? name with
    | some other => Run.importModule id other
    | none =>
      if ← isStandardLibrary v then pure ()
      else Run.fail (.cannotImport name)
    importInto id rest

def importModules (_ : Engine) (s : Scope) (items : List Value) : Run Step := do
  importInto s.home items
  return .done .void

def includeFiles (g : Engine) (id : Nat) : List Value → Run Unit
  | [] => return ()
  | v :: rest => do
    match v.text? with
    | some path => g.load (String.ofList path) (some id)
    | none => Run.faulty .badFileName
    includeFiles g id rest

def declare (g : Engine) (id : Nat) (v : Value) : Run Unit :=
  match v.elements? with
  | some (kind :: items) =>
    if kind.isSym "export" then do Run.exportNames id (← symbolNames "export" items)
    else if kind.isSym "import" then importInto id items
    else if kind.isSym "begin" then runIn g id items
    else if kind.isSym "include" then includeFiles g id items
    else do Run.fail (.unknownDeclaration (← Run.label kind))
  | _ => Run.fail .badDeclaration

def declareAll (g : Engine) (id : Nat) : List Value → Run Unit
  | [] => return ()
  | v :: rest => do
    declare g id v
    declareAll g id rest

def defineLibrary (g : Engine) (_ : Scope) : List Value → Run Step
  | [] => arityError .defineLibrary
  | name :: declarations => do
    let id ← Run.makeModule (← Run.moduleName name)
    declareAll g id declarations
    return .done .void

end LiveScheme.Form
