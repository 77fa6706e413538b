import LiveScheme.Primitive.Arguments
import LiveScheme.Value.Equality

/-!
# Procedures on pairs, lists and vectors

A pair is a list with elements or an improper list. Results that are lists are new objects.
-/

namespace LiveScheme.Primitive

def carOf (v : Value) : Run Value :=
  match v with
  | .list _ (x :: _) | .improper _ (x :: _) _ => return x
  | .improper _ [] _ => Run.faulty .emptySequence
  | v => bad "car" "pair" v

def cdrOf (v : Value) : Run Value :=
  match v with
  | .list _ (_ :: rest) => Run.newList rest
  | .improper _ (_ :: x :: rest) tail => Run.newImproper (x :: rest) tail
  | .improper _ _ tail => return tail
  | v => bad "cdr" "pair" v

def isPair : Value → Bool
  | .list _ (_ :: _) | .improper _ _ _ => true
  | _ => false

def cons (args : List Value) : Run Value := do
  checkCount "cons" 2 (some 2) args
  match args with
  | [a, d] => Run.newAttached [a] d
  | _ => return .void

def car (args : List Value) : Run Value := do
  checkCount "car" 1 (some 1) args
  carOf (args.headD .void)

def cdr (args : List Value) : Run Value := do
  checkCount "cdr" 1 (some 1) args
  cdrOf (args.headD .void)

def cadr (args : List Value) : Run Value := do carOf (← cdr args)

def cddr (args : List Value) : Run Value := do cdrOf (← cdr args)

def caar (args : List Value) : Run Value := do carOf (← car args)

def length (args : List Value) : Run Value := do
  checkCount "length" 1 (some 1) args
  return .int (← listArg "length" (args.headD .void)).length

def appendTo (items : List Value) : List Value → Run Value
  | [] => Run.newList items
  | [tail] =>
    match tail with
    | .list _ _ | .improper _ _ _ => Run.newAttached items tail
    | tail => if items.isEmpty then return tail else Run.newAttached items tail
  | v :: rest => do
    let more ← listArg "append" v
    appendTo (items ++ more) rest

def reverse (args : List Value) : Run Value := do
  checkCount "reverse" 1 (some 1) args
  Run.newList (← listArg "reverse" (args.headD .void)).reverse

/-- The index that a value denotes, when it is within the bound. -/
def indexBelow? (bound : Nat) (v : Value) : Option Nat :=
  match v.index? with
  | some n => if 0 ≤ n ∧ n < bound then some n.toNat else none
  | none => none

def listRef (args : List Value) : Run Value := do
  checkCount "list-ref" 2 (some 2) args
  match args with
  | [xs, k] => do
    let items ← listArg "list-ref" xs
    match indexBelow? items.length k with
    | some n => return items.getD n Value.void
    | none => bad "list-ref" "index" k
  | _ => return .void

def listTail (args : List Value) : Run Value := do
  checkCount "list-tail" 2 (some 2) args
  match args with
  | [xs, k] => do
    let items ← listArg "list-tail" xs
    match indexBelow? (items.length + 1) k with
    | some n => Run.newList (items.drop n)
    | none => bad "list-tail" "index" k
  | _ => return .void

def member (who : String) (same : Value → Value → Bool) (args : List Value) : Run Value := do
  checkCount who 2 (some 2) args
  match args with
  | [x, xs] => do
    match (← listArg who xs).dropWhile (!same x ·) with
    | [] => return .bool false
    | found => Run.newList found
  | _ => return .void

def findEntry (same : Value → Value → Bool) (x : Value) : List Value → Run Value
  | [] => return .bool false
  | entry :: rest => do
    if same x (← carOf entry) then return entry else findEntry same x rest

def assoc (who : String) (same : Value → Value → Bool) (args : List Value) : Run Value := do
  checkCount who 2 (some 2) args
  match args with
  | [x, xs] => do findEntry same x (← listArg who xs)
  | _ => return .void

/-- The lists of first elements, second elements and so on, as long as every list has one. -/
def transpose : Nat → List (List Value) → List (List Value)
  | 0, _ => []
  | count + 1, lists =>
    if lists.any (·.isEmpty) then []
    else lists.filterMap (·.head?) :: transpose count (lists.map (·.drop 1))

def rows (lists : List (List Value)) : List (List Value) :=
  transpose (lists.headD []).length lists

def applyAll (g : Engine) (proc : Value) : List (List Value) → Run (List Value)
  | [] => return []
  | row :: rest => do
    let v ← g.apply proc row
    return v :: (← applyAll g proc rest)

def map (g : Engine) (args : List Value) : Run Value := do
  checkCount "map" 2 none args
  let lists ← listArgs "map" (args.drop 1)
  Run.newList (← applyAll g (args.headD .void) (rows lists))

def forEach (g : Engine) (args : List Value) : Run Value := do
  checkCount "for-each" 2 none args
  let lists ← listArgs "for-each" (args.drop 1)
  let _ ← applyAll g (args.headD .void) (rows lists)
  return .void

def keep (g : Engine) (test : Value) : List Value → Run (List Value)
  | [] => return []
  | x :: rest => do
    let verdict ← g.apply test [x]
    let more ← keep g test rest
    return if verdict.isFalse then more else x :: more

def filter (g : Engine) (args : List Value) : Run Value := do
  checkCount "filter" 2 (some 2) args
  match args with
  | [test, xs] => do Run.newList (← keep g test (← listArg "filter" xs))
  | _ => return .void

def vectorRef (args : List Value) : Run Value := do
  checkCount "vector-ref" 2 (some 2) args
  match args with
  | [.vector _ items, k] =>
    match indexBelow? items.length k with
    | some n => return items.getD n Value.void
    | none => bad "vector-ref" "arguments" (.list .symbolName args)
  | _ => bad "vector-ref" "arguments" (.list .symbolName args)

def vectorLength (args : List Value) : Run Value := do
  checkCount "vector-length" 1 (some 1) args
  match args.headD .void with
  | .vector _ items => return .int items.length
  | v => bad "vector-length" "vector" v

def listToVector (args : List Value) : Run Value := do
  checkCount "list->vector" 1 (some 1) args
  Run.newVector (← listArg "list->vector" (args.headD .void))

def newTexts : List Char → Run (List Value)
  | [] => return []
  | c :: rest => do
    let v ← Run.newText (String.singleton c)
    return v :: (← newTexts rest)

/-- Takes apart whatever has elements: texts into characters, and an improper list into the list of
its elements and its tail. -/
def vectorToList (args : List Value) : Run Value := do
  checkCount "vector->list" 1 (some 1) args
  match args.headD .void with
  | .list _ items | .vector _ items => Run.newList items
  | .str _ text => do Run.newList (← newTexts text.toList)
  | .char c => do Run.newList (← newTexts [c])
  | .improper _ items tail => do
    let inner ← Run.newList items
    Run.newList [inner, tail]
  | v => Run.faulty (.noElements v.kindWord)

end LiveScheme.Primitive
