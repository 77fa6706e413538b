import LiveScheme.Datum.Reader
import LiveScheme.Machine.Run
import LiveScheme.Text.Lines

/-!
# Engines

An engine evaluates expressions and calls primitives within an allowance of steps. Forms and
primitives are defined over an engine and know nothing of how it works. A form hands its last
subform back as a next step, so that a loop made of such steps needs no depth.
-/

namespace LiveScheme

inductive Task
  | eval (e : Value) (s : Scope)
  | call (p : Primitive) (s : Scope) (args : List Value)

structure Engine where
  allowance : Nat
  perform : Task → Run Value

/-- What is left to do for an expression: nothing, or another expression. -/
inductive Step
  | done (v : Value)
  | again (e : Value) (s : Scope)

namespace Engine

def eval (g : Engine) (e : Value) (s : Scope) : Run Value := g.perform (.eval e s)

def evalAll (g : Engine) (s : Scope) : List Value → Run (List Value)
  | [] => return []
  | e :: rest => do
    let v ← g.eval e s
    return v :: (← g.evalAll s rest)

/-- Evaluates every form for its effect. -/
def runAll (g : Engine) (s : Scope) : List Value → Run Unit
  | [] => return ()
  | e :: rest => do
    let _ ← g.eval e s
    g.runAll s rest

/-- Evaluates all forms but the last, which is the next step. -/
def body (g : Engine) (s : Scope) : List Value → Run Step
  | [] => return .done .void
  | [last] => return .again last s
  | e :: rest => do
    let _ ← g.eval e s
    g.body s rest

/-- Evaluates each form in the module that is current when its turn comes. -/
def runInCurrent (g : Engine) : List Datum → Run Unit
  | [] => return ()
  | d :: rest => do
    let e ← Run.ofDatum d
    let _ ← g.eval e (.ofModule (← get).current)
    g.runInCurrent rest

/-- Evaluates every form of a file, in the given module or else the current one. A module selected
inside the file is left again at its end. -/
def load (g : Engine) (path : String) (home : Option Nat) : Run Unit := do
  let m ← get
  if path.toList.contains '\x00' then Run.faulty .zeroByteInName
  match m.disk.read path with
  | .error problem => Run.fail (.cannotLoad path problem)
  | .ok text =>
    Run.within (home.getD m.current) do
      let forms ← Run.ofRead (Datum.readAll (String.ofList (Text.unifyLineEnds text.toList)))
      g.runInCurrent forms

end Engine

end LiveScheme
