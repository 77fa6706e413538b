import LiveScheme.Evaluator.Procedure

/-!
# Arguments of built-in procedures

Each check answers the argument in its own type or fails with the procedure's name and the text of
the offending value.
-/

namespace LiveScheme.Primitive

def checkCount (who : String) (low : Nat) (high : Option Nat) (args : List Value) : Run Unit :=
  let got := args.length
  if got < low || high.any (· < got) then Run.fail (.arity who low high got) else pure ()

def bad {α : Type} (who what : String) (v : Value) : Run α := do
  Run.fail (.badArgument who what (← Run.text v))

def numbers (who : String) : List Value → Run (List Number)
  | [] => return []
  | v :: rest =>
    match v.number? with
    | some n => do return n :: (← numbers who rest)
    | none => bad who "number" v

def listArg (who : String) (v : Value) : Run (List Value) :=
  match v with
  | .list _ items => return items
  | v => bad who "list" v

def listArgs (who : String) : List Value → Run (List (List Value))
  | [] => return []
  | v :: rest => do
    let items ← listArg who v
    return items :: (← listArgs who rest)

def textArg (who : String) (v : Value) : Run String :=
  match v with
  | .str _ text => return text
  | v => bad who "string" v

def textArgs (who : String) : List Value → Run (List String)
  | [] => return []
  | v :: rest => do
    let text ← textArg who v
    return text :: (← textArgs who rest)

end LiveScheme.Primitive
