import LiveScheme.Evaluator.Procedure

/-!
# Expansion

One step of expansion calls the expander at the head of a form. Full expansion repeats this at the
head until no expander is left, and then descends into the parts; quoted and quasiquoted forms are
left alone.
-/

namespace LiveScheme.Engine

/-- The expansion of the head of a form; none when no expander stands there. -/
def expandHead? (g : Engine) (form : Value) (s : Scope) : Run (Option Value) := do
  match form.elements? with
  | some (head :: args) =>
    match ← Run.keyword? head s with
    | some (.expander _ _ transformer) => return some (← g.apply (.closure transformer) args)
    | _ => return none
  | _ => return none

def expandOnce (g : Engine) (form : Value) (s : Scope) : Run Value := do
  return (← g.expandHead? form s).getD form

def isTemplate (head : Value) : Bool := head.isSym "quote" || head.isSym "quasiquote"

/-- Applies `f` to every element in turn. -/
def mapInOrder (f : Value → Run Value) : List Value → Run (List Value)
  | [] => return []
  | x :: rest => do
    let y ← f x
    return y :: (← mapInOrder f rest)

def expandAll (g : Engine) : Nat → Value → Scope → Run Value
  | 0, _, _ => throw .endless
  | fuel + 1, form, s => do
    match ← g.expandHead? form s with
    | some expanded => expandAll g fuel expanded s
    | none =>
      match form with
      | .improper _ items tail =>
        let items ← mapInOrder (fun x => expandAll g fuel x s) items
        Run.newImproper items tail
      | .list _ (head :: rest) | .vector _ (head :: rest) =>
        if isTemplate head then return form
        else do Run.newList (← mapInOrder (fun x => expandAll g fuel x s) (head :: rest))
      | _ => return form

/-- Expands the head once, or everything. -/
def expand (g : Engine) (form : Value) (s : Scope) (everything : Bool) : Run Value :=
  if everything then g.expandAll g.allowance form s else g.expandOnce form s

end LiveScheme.Engine
