import LiveScheme.Machine.Run
import LiveScheme.Text.Split

/-!
# Introspection

What an editor asks about names: which exist, what an export of a module is, and what a name is
bound to. Names are listed in the order of their code points.
-/

namespace LiveScheme.Introspection

/-- The module of the given name; the default module when there is none. -/
def targetModule (m : Machine) (name : Option Value) : Nat :=
  match name with
  | none | some (.bool false) => Machine.defaultId
  | some v => (m.moduleFor? v).getD Machine.defaultId

def sorted (names : List String) : List String := names.mergeSort fun a b => !decide (b < a)

def startingWith (stem : String) (names : List String) : List String :=
  sorted (names.filter fun name => Text.startsWith stem.toList name.toList)

def completions (m : Machine) (stem : String) : List String :=
  startingWith stem (m.visibleNames m.current)

def moduleCompletions (m : Machine) (stem : String) : List String :=
  startingWith stem (m.modules.toList.map (·.name))

inductive Kind
  | procedure
  | keyword
  | variable
deriving DecidableEq, Repr

/-- Where keywords have no value, an unbound name is one; else keywords are values. -/
def kindOf (keywordsAreValues : Bool) : Option Value → Kind
  | none => if keywordsAreValues then .variable else .keyword
  | some v =>
    if v.isProcedure then .procedure
    else match keywordsAreValues, v with
      | true, .keyword _ => .keyword
      | _, _ => .variable

def classify (keywordsAreValues : Bool) (home : Nat) (name : String) : Run Kind := do
  return kindOf keywordsAreValues ((← Run.valueIn? name home).map (·.1))

def classifyAll (keywordsAreValues : Bool) (home : Nat) : List String → Run (List (String × Kind))
  | [] => return []
  | name :: rest => do
    let kind ← classify keywordsAreValues home name
    return (name, kind) :: (← classifyAll keywordsAreValues home rest)

def ofKind (kind : Kind) (entries : List (String × Kind)) : List String :=
  (entries.filter (·.2 == kind)).map (·.1)

def listing (title : String) (names : List String) : Datum :=
  Datum.list (Datum.str title :: names.map fun name => Datum.list [.sym name])

def exportsDatum (entries : List (String × Kind)) : Datum :=
  Datum.list [
    listing "modules" [],
    listing "procs" (ofKind .procedure entries),
    listing "syntax" (ofKind .keyword entries),
    listing "vars" (ofKind .variable entries)]

/-- The exports of a module by kind; an unknown module has none. -/
def moduleExports (name : Value) : Run Datum := do
  let m ← get
  match m.moduleFor? name with
  | some id => do
    return exportsDatum (← classifyAll m.keywordsAreValues id (m.module id).exports)
  | none => return exportsDatum []

end LiveScheme.Introspection
