import LiveScheme.Form.Binding
import LiveScheme.Form.Definition
import LiveScheme.Form.Modules
import LiveScheme.Form.Quasiquote
import LiveScheme.Primitive.Call
import LiveScheme.Service.Call

/-!
# The evaluator

Symbols are looked up, lists are special forms, expansions or calls, and everything else but an
improper list is its own value. Calls of closures and last subforms are next steps of the same
expression. `performWithin` uses up one unit of its allowance at every step.
-/

namespace LiveScheme

def Primitive.call (g : Engine) (s : Scope) (args : List Value) : Primitive → Run Value
  | .builtin b => b.call g s args
  | .service connection request => request.call g connection args

def SpecialForm.run (g : Engine) (s : Scope) (args : List Value) : SpecialForm → Run Step
  | .quote =>
    match args with
    | [v] => return .done v
    | _ => Form.arityError .quote
  | .quasiquote =>
    match args with
    | [v] => do return .done (← Quasiquote.template g s 1 v)
    | _ => Form.arityError .quasiquote
  | .lambda =>
    match args with
    | formals :: form :: forms => do return .done (← Closure.make formals (form :: forms) s none)
    | _ => Form.arityError .lambda
  | .define => Form.define g s args
  | .assign => Form.assign g s args
  | .defineMacro => Form.defineMacro g s args
  | .conditional => Form.conditional g s args
  | .begin => g.body s args
  | .cond => Form.cond g s args
  | .case => Form.case g s args
  | .and => Form.and g s args
  | .or => Form.or g s args
  | .whenTrue => Form.whenTrue g s args
  | .unlessTrue => Form.unlessTrue g s args
  | .letPlain => Form.letPlain g s args
  | .letStar => Form.letStar g s args
  | .letrec | .letrecStar => Form.letrec g s args
  | .defineModule => Form.defineModule g s args
  | .selectModule => Form.selectModule g s args
  | .exportNames => Form.exportNames g s args
  | .importModules => Form.importModules g s args
  | .defineLibrary => Form.defineLibrary g s args

namespace Engine

/-- Calls a procedure from an expression. -/
def call (g : Engine) (proc : Value) (s : Scope) (args : List Value) : Run Step := do
  match ← Run.closure? proc with
  | some c => return .again c.body (← c.bind args)
  | none =>
    match proc with
    | .primitive p => do return .done (← p.call g s args)
    | v => Run.fail (.badProcedure (← Run.text v))

def step (g : Engine) (s : Scope) (e : Value) : Run Step :=
  match e with
  | .sym name => do return .done (← Run.lookup name s)
  | .list _ [] => do return .done (← Run.newList [])
  | .list _ (head :: args) => do
    match ← Run.keyword? head s with
    | some (.form f) => f.run g s args
    | some (.expander _ _ transformer) => do
      return .again (← g.apply (.closure transformer) args) s
    | none => do
      let proc ← g.eval head s
      g.call proc s (← g.evalAll s args)
  | .improper _ _ _ => do Run.fail (.badForm (← Run.text e))
  | e => return .done e

end Engine

def performWithin : Nat → Task → Run Value
  | 0, _ => throw .endless
  | fuel + 1, .call p s args => p.call ⟨fuel, performWithin fuel⟩ s args
  | fuel + 1, .eval e s => do
    match ← Engine.step ⟨fuel, performWithin fuel⟩ s e with
    | .done v => return v
    | .again e s => performWithin fuel (.eval e s)

def Engine.ofAllowance (allowance : Nat) : Engine := ⟨allowance, performWithin allowance⟩

/-- An allowance that no program which ends in reasonable time uses up. -/
def ampleAllowance : Nat := 1000000000000000

def engine : Engine := Engine.ofAllowance ampleAllowance

namespace Engine

/-- Evaluates data one after another and answers the value of the last one. -/
def evalData (g : Engine) (home : Option Nat) (last : Value) : List Datum → Run Value
  | [] => return last
  | d :: rest => do
    let e ← Run.ofDatum d
    let v ← g.eval e (.ofModule (home.getD (← get).current))
    g.evalData home v rest

/-- Reads and evaluates every form of a text. -/
def evalText (g : Engine) (source : String) (home : Option Nat) : Run Value := do
  g.evalData home .void (← Run.ofRead (Datum.readAll source))

end Engine

end LiveScheme
