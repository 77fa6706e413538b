import LiveScheme.Evaluator.Engine

/-!
# Procedures

Closures are made from a parameter list and a body, and calls bind their arguments in a new frame
inside the scope of the closure.
-/

namespace LiveScheme

/-- The required parameters and the name that collects the rest. -/
def Formals.ofValue (v : Value) : Run Formals :=
  match v with
  | .sym name => return ⟨[], some name⟩
  | .improper _ items (.sym name) => return ⟨items, some name⟩
  | .improper _ _ tail => do Run.fail (.badRest (← Run.described tail))
  | .list _ items | .vector _ items => return ⟨items, none⟩
  | v => do Run.fail (.badParameters (← Run.described v))

namespace Closure

/-- A leading text in a body of several forms is documentation. -/
def splitDoc : List Value → String × List Value
  | first :: second :: rest =>
    match first.text? with
    | some cs => (String.ofList cs, second :: rest)
    | none => ("", first :: second :: rest)
  | body => ("", body)

def make (formals : Value) (forms : List Value) (s : Scope) (name : Option String) :
    Run Value := do
  let formals ← Formals.ofValue formals
  let (doc, forms) := splitDoc forms
  let body ← match forms with
    | [form] => pure form
    | forms => Run.newList (.sym "begin" :: forms)
  Run.newClosure ⟨name, formals, body, s, doc⟩

/-- The name that messages use for the procedure. -/
def callName (c : Closure) : String :=
  match c.name with
  | some name => if name.isEmpty then "lambda" else name
  | none => "lambda"

def bindRequired (table : Table Value) : List Value → List Value → Run (Table Value)
  | .sym name :: formals, v :: args => bindRequired (table.put name v) formals args
  | formal :: _, _ :: _ => do Run.fail (.cannotDefine (← Run.described formal))
  | _, _ => return table

/-- The scope of the body of a call. -/
def bind (c : Closure) (args : List Value) : Run Scope := do
  let required := c.formals.required
  let count := required.length
  if args.length < count || (c.formals.rest.isNone && count < args.length) then
    Run.fail (.callArity c.callName count c.formals.rest.isSome args.length)
  let table ← bindRequired [] required args
  let table ← match c.formals.rest with
    | none => pure table
    | some name => do
      let rest ← Run.newList (args.drop count)
      pure (table.put name rest)
  return c.scope.inner (← Run.newFrame table)

end Closure

namespace Engine

/-- Calls a procedure from outside any expression. -/
def apply (g : Engine) (proc : Value) (args : List Value) : Run Value := do
  match ← Run.closure? proc with
  | some c =>
    let s ← c.bind args
    g.eval c.body s
  | none =>
    match proc with
    | .primitive p => g.perform (.call p (.ofModule (← get).current) args)
    | v => Run.fail (.badProcedure (← Run.described v))

end Engine

end LiveScheme
