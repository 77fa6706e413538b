import LiveScheme.Fault
import LiveScheme.Text.Quoted

/-!
# Reading errors

A text that ends too early is incomplete: more input may still complete it. Every other error is
final.
-/

namespace LiveScheme

/-- What was still open where the text ended. -/
inductive Gap
  | nothingRead
  | text
  | blockComment
  | datum
  | list
  | vector
  | dottedTail
deriving DecidableEq, Repr

def Gap.message : Gap → String
  | .nothingRead => "no datum to read"
  | .text => "unterminated string"
  | .blockComment => "unterminated block comment"
  | .datum => "unexpected end of input"
  | .list => "unexpected end of input while reading list"
  | .vector => "unexpected end of input while reading vector"
  | .dottedTail => "unexpected end of input after dot"

inductive ReadError
  | incomplete (gap : Gap)
  | unexpectedChar (position : Nat) (c : Char)
  | unexpectedDot
  | unexpectedClose (text : List Char)
  | badCharName (name : List Char)
  | badNumber (text : List Char)
  | badDottedList
  | unclosedTail
  | fault (f : Fault)
deriving DecidableEq, Repr

namespace ReadError

def isIncomplete : ReadError → Bool
  | incomplete _ => true
  | _ => false

def message : ReadError → String
  | incomplete gap => gap.message
  | unexpectedChar position c =>
    "unexpected character at " ++ toString position ++ ": " ++ String.ofList (Text.quoted [c])
  | unexpectedDot => "unexpected dot"
  | unexpectedClose text => "unexpected '" ++ String.ofList text ++ "'"
  | badCharName name => "bad character name #\\" ++ String.ofList name
  | badNumber text => "bad number " ++ String.ofList text
  | badDottedList => "bad dotted list"
  | unclosedTail => "expected ')' after dotted tail"
  | fault f => f.message

end ReadError

end LiveScheme
