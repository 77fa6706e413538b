import LiveScheme.Form.Control

/-!
# Definitions

`define` binds a value or a procedure, `set!` changes a binding, and `define-macro` makes a closure
the expander of a keyword. The head of a procedure definition may itself be a head: then the
procedure answers a procedure.
-/

namespace LiveScheme.Form

/-- The name and the parameters of a definition head. -/
def splitHead (spec : Value) : Run (Value × Value) :=
  match spec with
  | .list _ (head :: params) | .vector _ (head :: params) =>
    return (head, ← Run.newList params)
  | .improper _ [head] tail => return (head, tail)
  | .improper _ (head :: params) tail => return (head, ← Run.newImproper params tail)
  | .list _ [] | .vector _ [] | .improper _ [] _ => Run.faulty .emptySequence
  | .str _ text => if text.isEmpty then Run.faulty .offEnd else Run.faulty .noName
  | .char _ => Run.faulty .noName
  | v => Run.faulty (.noFirst v.kindWord)

/-- How many heads a head is nested in. -/
def headDepth : Value → Nat
  | .list _ (head :: _) | .vector _ (head :: _) | .improper _ (head :: _) _ => headDepth head + 1
  | _ => 0

/-- What a definition can begin with besides a name. -/
def isHead : Value → Bool
  | .list _ items | .vector _ items => !items.isEmpty
  | .improper _ _ _ => true
  | _ => false

def defineProcedure (s : Scope) : Nat → Value → List Value → Run Unit
  | 0, _, _ => Run.fail .badDefine
  | depth + 1, spec, forms =>
    if !isHead spec then Run.fail .badDefine
    else if forms.isEmpty then Run.fail .defineNoBody
    else do
      let (head, formals) ← splitHead spec
      match head with
      | .sym name => Run.define name (← Closure.make formals forms s (some name)) s
      | head => do
        let inner ← Run.newList (.sym "lambda" :: formals :: forms)
        defineProcedure s depth head [inner]

def define (g : Engine) (s : Scope) : List Value → Run Step
  | [] => arityError .define
  | .sym name :: forms => do
    match forms with
    | [] => Run.define name .void s
    | [e] => do
      let v ← g.eval e s
      Run.nameClosure v name
      Run.define name v s
    | _ => Run.fail .defineSeveralValues
    return .done .void
  | spec :: forms => do
    defineProcedure s (headDepth spec + 1) spec forms
    return .done .void

def assign (g : Engine) (s : Scope) : List Value → Run Step
  | [.sym name, e] => do
    Run.assign name (← g.eval e s) s
    return .done .void
  | _ => arityError .assign

def defineExpander (name : String) (transformer : Value) (s : Scope) : Run Step := do
  match transformer with
  | .closure id =>
    Run.defineKeyword name (.expander (← Run.newTag) name id) s.home
    return .done .void
  | _ => Run.fail .badTransformer

def defineMacro (g : Engine) (s : Scope) : List Value → Run Step
  | .sym name :: e :: _ => do defineExpander name (← g.eval e s) s
  | spec :: e :: forms => do
    let (head, formals) ← splitHead spec
    match head with
    | .sym name => do
      defineExpander name (← Closure.make formals (e :: forms) s (some name)) s
    | _ => Run.faulty .noName
  | _ => arityError .defineMacro

end LiveScheme.Form
