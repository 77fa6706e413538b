import LiveScheme.Evaluator.Engine

/-!
# Quasiquotation

A template is copied with the operands of its unquotes replaced by their values. Nested
quasiquotations raise the level and unquotes lower it; only those that reach level zero are
evaluated.
-/

namespace LiveScheme.Quasiquote

/-- The operand of a two-element list that begins with the given symbol. -/
def operand? (tag : String) : Value → Option Value
  | .list _ [head, x] => if head.isSym tag then some x else none
  | _ => none

mutual

def template (g : Engine) (s : Scope) (level : Nat) : Value → Run Value
  | .list _ items =>
    match items with
    | [head, x] =>
      if head.isSym "unquote" then
        if level = 1 then g.eval x s
        else do
          let inner ← template g s (level - 1) x
          Run.newList [.sym "unquote", inner]
      else if head.isSym "quasiquote" then do
        let inner ← template g s (level + 1) x
        Run.newList [.sym "quasiquote", inner]
      else do Run.newList (← templates g s level [head, x])
    | items => do Run.newList (← templates g s level items)
  | .vector _ items => do Run.newVector (← templates g s level items)
  | .improper _ items tail => do
    let expanded ← templates g s level items
    let rest ← template g s level tail
    match rest with
    | .list _ more | .vector _ more => Run.newList (expanded ++ more)
    | rest => Run.newImproper expanded rest
  | v => return v

def templates (g : Engine) (s : Scope) (level : Nat) : List Value → Run (List Value)
  | [] => return []
  | item :: rest => do
    let here ← match if level = 1 then operand? "unquote-splicing" item else none with
      | some x => do
        match (← g.eval x s).elements? with
        | some items => pure items
        | none => Run.fail .badSplice
      | none => do pure [← template g s level item]
    return here ++ (← templates g s level rest)

end

end LiveScheme.Quasiquote
