import LiveScheme.Datum.Atom
import LiveScheme.Datum.Token

/-!
# Reading data

Tokens are read one after another against a stack of constructs that still wait for a datum. A
finished datum is handed to the innermost construct, which may be finished by it in turn. The datum
after a datum comment is dropped and another one must follow.
-/

namespace LiveScheme

namespace Datum

/-- A construct that waits for a datum; elements read so far stand last one first. -/
inductive Open
  | list (items : List Datum)
  | vector (items : List Datum)
  | quoted (name : String)
  | ignored
  | wanted
  | dotted (items : List Datum)
  | sealed (items : List Datum) (tail : Datum)

/-- The data read so far, last one first, and the constructs still open, innermost first. -/
structure Reading where
  done : List Datum
  stack : List Open

namespace Reading

def start : Reading := ⟨[], []⟩

/-- Hands a finished datum to the innermost open construct. -/
def deliver (done : List Datum) (d : Datum) : List Open → Reading
  | [] => ⟨d :: done, []⟩
  | .list items :: stack => ⟨done, .list (d :: items) :: stack⟩
  | .vector items :: stack => ⟨done, .vector (d :: items) :: stack⟩
  | .quoted name :: stack => deliver done (Datum.list [.sym name, d]) stack
  | .ignored :: stack => ⟨done, .wanted :: stack⟩
  | .wanted :: stack => deliver done d stack
  | .dotted items :: stack => ⟨done, .sealed items d :: stack⟩
  | .sealed items _ :: stack => ⟨done, .sealed items d :: stack⟩

def quoteName : List Char → String
  | ['\x27'] => "quote"
  | ['\x60'] => "quasiquote"
  | [','] => "unquote"
  | _ => "unquote-splicing"

def close (r : Reading) (text : List Char) : Except ReadError Reading :=
  match r.stack with
  | .list items :: stack => .ok (deliver r.done (Datum.list items.reverse) stack)
  | .vector items :: stack => .ok (deliver r.done (Datum.vector items.reverse) stack)
  | .sealed items tail :: stack =>
    .ok (deliver r.done (Node.attach () items.reverse tail) stack)
  | _ => .error (.unexpectedClose text)

def dot (r : Reading) : Except ReadError Reading :=
  match r.stack with
  | .list [] :: _ => .error .badDottedList
  | .list items :: stack => .ok ⟨r.done, .dotted items :: stack⟩
  | _ => .error .unexpectedDot

/-- The characters between the first and the last one. -/
def inner (cs : List Char) : List Char := (cs.drop 1).dropLast

/-- Reads a token when the innermost construct can still take a datum. -/
def take (r : Reading) (t : Token) : Except ReadError Reading :=
  match t.kind with
  | .datumComment => .ok ⟨r.done, .ignored :: r.stack⟩
  | .quote | .unquote => .ok ⟨r.done, .quoted (quoteName t.text) :: r.stack⟩
  | .vectorOpen => .ok ⟨r.done, .vector [] :: r.stack⟩
  | .listOpen => .ok ⟨r.done, .list [] :: r.stack⟩
  | .close => close r t.text
  | .text => do
    let body ← (Atom.unescape (inner t.text)).mapError .fault
    return deliver r.done (Datum.str (String.ofList body)) r.stack
  | .char => do return deliver r.done (.char (← Atom.char (t.text.drop 2))) r.stack
  | .bool => .ok (deliver r.done (.bool (t.text.take 2 == ['#', 't'])) r.stack)
  | .word =>
    if t.text = ['.'] then dot r
    else do return deliver r.done (← Atom.word t.text) r.stack

def step (r : Reading) (t : Token) : Except ReadError Reading :=
  match r.stack with
  | .sealed _ _ :: _ => if t.kind = .close then close r t.text else .error .unclosedTail
  | _ => take r t

/-- What is missing where the tokens end. -/
def gap? : List Open → Option Gap
  | [] => none
  | .list _ :: _ => some .list
  | .vector _ :: _ => some .vector
  | .sealed _ _ :: _ => some .dottedTail
  | _ :: _ => some .datum

def run (r : Reading) : List Token → Except ReadError Reading
  | [] => .ok r
  | t :: rest => do run (← step r t) rest

/-- Reads tokens until a first datum is finished. -/
def runToFirst (r : Reading) : List Token → Except ReadError Reading
  | [] => .ok r
  | t :: rest => do
    let r ← step r t
    if r.done.isEmpty then runToFirst r rest else return r

end Reading

/-- Every datum of a text. -/
def readAll (source : String) : Except ReadError (List Datum) := do
  let lexed := Lexed.ofText source.toList
  let r ← Reading.start.run lexed.tokens
  if let some e := lexed.failure then throw e
  if let some gap := Reading.gap? r.stack then throw (.incomplete gap)
  return r.done.reverse

/-- The first datum of a text; what follows it is not looked at. -/
def readOne (source : String) : Except ReadError Datum := do
  let lexed := Lexed.ofText source.toList
  let r ← Reading.start.runToFirst lexed.tokens
  match r.done with
  | d :: _ => return d
  | [] =>
    if let some e := lexed.failure then throw e
    throw (.incomplete ((Reading.gap? r.stack).getD .nothingRead))

end Datum

end LiveScheme
