import LiveScheme.Evaluator.Expansion
import LiveScheme.Primitive.Arguments

/-!
# Procedures on the runtime

Output, multiple values, errors, evaluation, modules and expansion.
-/

namespace LiveScheme.Primitive

def portArg (args : List Value) (index : Nat) : Run Port :=
  match args[index]? with
  | none => return .output
  | some (.port p) => return p
  | some v => do Run.fail (.badPort (← Run.text v))

def output (who : String) (form : Value → Run String) (args : List Value) : Run Value := do
  checkCount who 1 (some 2) args
  let p ← portArg args 1
  Run.writeTo p (← form (args.headD .void))
  return .void

def newline (args : List Value) : Run Value := do
  checkCount "newline" 0 (some 1) args
  Run.writeTo (← portArg args 0) "\n"
  return .void

def constant (who : String) (v : Value) (args : List Value) : Run Value := do
  checkCount who 0 (some 0) args
  return v

def apply (g : Engine) (args : List Value) : Run Value := do
  checkCount "apply" 2 none args
  let fixed := (args.drop 1).dropLast
  let spread ← listArg "apply" (args.getLastD .void)
  g.apply (args.headD .void) (fixed ++ spread)

def values (args : List Value) : Run Value :=
  match args with
  | [v] => return v
  | args => do return .several (← Run.newTag) args

def callWithValues (g : Engine) (args : List Value) : Run Value := do
  checkCount "call-with-values" 2 (some 2) args
  match args with
  | [producer, consumer] => do
    match ← g.apply producer [] with
    | .several _ parts => g.apply consumer parts
    | v => g.apply consumer [v]
  | _ => return .void

def irritants : List Value → Run String
  | [] => return ""
  | v :: rest => do
    let here ← Run.text v
    return " " ++ here ++ (← irritants rest)

/-- The message of an error: who signals it, what happened, and the values concerned. -/
def errorMessage : List Value → Run String
  | .sym who :: message :: rest => do
    return who ++ ": " ++ (← Run.displayed message) ++ (← irritants rest)
  | message :: rest => do return (← Run.displayed message) ++ (← irritants rest)
  | [] => return ""

def error (args : List Value) : Run Value := do
  checkCount "error" 1 none args
  Run.fail (.user (← errorMessage args))

def eval (g : Engine) (s : Scope) (args : List Value) : Run Value := do
  checkCount "eval" 1 (some 2) args
  match args with
  | [e, home] => do g.eval e (.ofModule (← Run.resolveModule home))
  | _ => g.eval (args.headD .void) (.ofModule s.home)

def load (g : Engine) (args : List Value) : Run Value := do
  checkCount "load" 1 (some 1) args
  g.load (← textArg "load" (args.headD .void)) none
  return .void

def version (args : List Value) : Run Value := do
  checkCount "version" 0 (some 0) args
  return .str .versionText (← get).version

def findModule (args : List Value) : Run Value := do
  checkCount "find-module" 1 (some 1) args
  let name ← Run.moduleName (args.headD .void)
  match (← get).findModule? name with
  | some id => return .space id
  | none => return .bool false

def moduleName (args : List Value) : Run Value := do
  checkCount "module-name" 1 (some 1) args
  match args.headD .void with
  | .space id => return .sym ((← get).module id).name
  | v => bad "module-name" "module" v

def isModule : Value → Bool
  | .space _ => true
  | _ => false

def expand (g : Engine) (who : String) (everything : Bool) (s : Scope) (args : List Value) :
    Run Value := do
  checkCount who 1 (some 1) args
  g.expand (args.headD .void) s everything

def exit (args : List Value) : Run Value := do
  checkCount "exit" 0 (some 1) args
  throw (.exit (.ofValue (args.headD (.int 0))))

end LiveScheme.Primitive
