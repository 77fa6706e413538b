import LiveScheme.Evaluator.Procedure
import LiveScheme.Value.Equality

/-!
# Control forms

Conditionals and sequences. Only `#f` is false, and the last subform of each form is its next step.
-/

namespace LiveScheme.Form

def arityError {α : Type} (f : SpecialForm) : Run α := Run.fail (.formArity f)

def isTrue (v : Value) : Bool := !v.isFalse

def conditional (g : Engine) (s : Scope) : List Value → Run Step
  | [test, yes] => do
    if isTrue (← g.eval test s) then return .again yes s else return .done .void
  | [test, yes, no] => do
    if isTrue (← g.eval test s) then return .again yes s else return .again no s
  | _ => arityError .conditional

/-- A clause whose test is followed by an arrow passes the value of the test to a procedure. -/
def clauseBody (g : Engine) (s : Scope) (v : Value) : List Value → Run Step
  | [] => return .done v
  | first :: rest =>
    if first.isSym "=>" then
      match rest with
      | [receiver] => do
        let proc ← g.eval receiver s
        return .done (← g.apply proc [v])
      | _ => Run.fail .badArrowClause
    else g.body s (first :: rest)

def cond (g : Engine) (s : Scope) : List Value → Run Step
  | [] => return .done .void
  | clause :: rest =>
    match clause.elements? with
    | some (test :: forms) =>
      if test.isSym "else" then g.body s forms
      else do
        let v ← g.eval test s
        if isTrue v then clauseBody g s v forms else cond g s rest
    | _ => Run.fail .badCondClause

/-- What the keys of a clause are compared with. A text offers its characters, and an improper list
its elements as one list and then its tail. -/
def clauseKeys : Value → Except Fault (List Value)
  | .list _ items | .vector _ items => .ok items
  | .str _ text => .ok (text.toList.map fun c => .str .symbolName (String.singleton c))
  | .char c => .ok [.str .symbolName (String.singleton c)]
  | .improper tag items tail => .ok [.list tag items, tail]
  | v => .error (.noElements v.kindWord)

def caseClauses (g : Engine) (s : Scope) (key : Value) : List Value → Run Step
  | [] => return .done .void
  | clause :: rest =>
    match clause.elements? with
    | some (data :: forms) =>
      if data.isSym "else" then g.body s forms
      else do
        let keys ← Run.ofFault (clauseKeys data)
        if keys.any key.isEqv then g.body s forms else caseClauses g s key rest
    | _ => Run.fail .badCaseClause

def case (g : Engine) (s : Scope) : List Value → Run Step
  | [] => arityError .case
  | key :: clauses => do caseClauses g s (← g.eval key s) clauses

def and (g : Engine) (s : Scope) : List Value → Run Step
  | [] => return .done (.bool true)
  | [last] => return .again last s
  | e :: rest => do
    if isTrue (← g.eval e s) then and g s rest else return .done (.bool false)

def or (g : Engine) (s : Scope) : List Value → Run Step
  | [] => return .done (.bool false)
  | [last] => return .again last s
  | e :: rest => do
    let v ← g.eval e s
    if isTrue v then return .done v else or g s rest

def whenTrue (g : Engine) (s : Scope) : List Value → Run Step
  | [] => arityError .whenTrue
  | test :: forms => do
    if isTrue (← g.eval test s) then g.body s forms else return .done .void

def unlessTrue (g : Engine) (s : Scope) : List Value → Run Step
  | [] => arityError .unlessTrue
  | test :: forms => do
    if isTrue (← g.eval test s) then return .done .void else g.body s forms

end LiveScheme.Form
