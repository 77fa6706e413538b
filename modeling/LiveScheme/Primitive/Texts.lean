import LiveScheme.Number.Literal
import LiveScheme.Primitive.Arguments
import LiveScheme.Text.Letter
import LiveScheme.Text.Split

/-!
# Procedures on strings, symbols and numerals

Bounds of substrings may be negative, then they count from the end, and bounds beyond the ends are
moved to them.
-/

namespace LiveScheme.Primitive

def stringAppend (args : List Value) : Run Value := do
  let texts ← textArgs "string-append" args
  match args with
  | [v] => return v
  | _ => Run.newText (String.join texts)

def stringLength (args : List Value) : Run Value := do
  checkCount "string-length" 1 (some 1) args
  return .int (← textArg "string-length" (args.headD .void)).length

/-- A bound as an offset into a text of the given length. -/
def offsetOf (length : Nat) (n : Int) : Nat :=
  min length (if n < 0 then n + length else n).toNat

def boundArg (v : Value) : Run Int :=
  match v.index? with
  | some n => return n
  | none => Run.faulty .badBound

def substring (args : List Value) : Run Value := do
  checkCount "substring" 2 (some 3) args
  let whole := args.headD .void
  let cs := (← textArg "substring" whole).toList
  let first ← boundArg (args.getD 1 .void)
  let last ← boundArg (args.getD 2 (.int cs.length))
  let low := offsetOf cs.length first
  let high := offsetOf cs.length last
  if low = 0 ∧ high = cs.length then return whole
  else Run.newText (String.ofList ((cs.take high).drop low))

def allSame : List String → Bool
  | a :: b :: rest => a == b && allSame (b :: rest)
  | _ => true

def stringEq (args : List Value) : Run Value := do
  return .bool (allSame (← textArgs "string=?" args))

def stringStarts (args : List Value) : Run Value := do
  checkCount "string-prefix?" 2 (some 2) args
  match ← textArgs "string-prefix?" args with
  | [start, text] => return .bool (Text.startsWith start.toList text.toList)
  | _ => return .bool false

def changeCase (who : String) (f : List Char → List Char) (args : List Value) : Run Value := do
  checkCount who 1 (some 1) args
  let text ← textArg who (args.headD .void)
  Run.newText (String.ofList (f text.toList))

def symbolToString (args : List Value) : Run Value := do
  checkCount "symbol->string" 1 (some 1) args
  match args.headD .void with
  | .sym name => return .str .symbolName name
  | v => bad "symbol->string" "symbol" v

def stringToSymbol (args : List Value) : Run Value := do
  checkCount "string->symbol" 1 (some 1) args
  return .sym (← textArg "string->symbol" (args.headD .void))

def numberToString (args : List Value) : Run Value := do
  checkCount "number->string" 1 (some 1) args
  let _ ← numbers "number->string" args
  Run.newText (← Run.text (args.headD .void))

def stringToNumber (args : List Value) : Run Value := do
  checkCount "string->number" 1 (some 1) args
  let cs := (← textArg "string->number" (args.headD .void)).toList
  match Literal.integer? 10 cs with
  | some n => return .int n
  | none =>
    match Literal.real? cs with
    | some x => Run.ofNumber (.real x)
    | none => return .bool false

end LiveScheme.Primitive
