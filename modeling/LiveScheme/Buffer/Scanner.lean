import LiveScheme.Datum.Token

/-!
# Scanning buffers

A tolerant cut of a text into pieces, with their offsets. Every character belongs to exactly one
piece; blanks and comments are then left out. Block comments do not nest here, and a string that
never closes reaches to the end.
-/

namespace LiveScheme

open Text Token

/-- A piece of a buffer from offset `start` up to `stop`. -/
structure Span where
  text : List Char
  start : Nat
  stop : Nat
deriving DecidableEq, Repr

namespace Scanner

/-- The length of a block comment from after its opening mark, both marks included. -/
def blockLength : List Char → Option Nat
  | [] => none
  | '|' :: '#' :: _ => some 4
  | _ :: rest => (blockLength rest).map (· + 1)

/-- The length of a string from after its opening quote; a lone backslash at the end is left. -/
def textLength : List Char → Nat
  | [] => 0
  | '\\' :: rest =>
    match rest with
    | [] => 0
    | _ :: more => textLength more + 2
  | c :: rest => if c = '\x22' then 1 else textLength rest + 1

def wordLength (rest : List Char) : Nat := (rest.takeWhile isWordChar).length

/-- The number of characters after the number sign that belong to it. -/
def hashLength (rest : List Char) : Nat :=
  let word := wordLength rest
  match rest with
  | '|' :: more => ((blockLength more).map (· - 1)).getD word
  | ';' :: _ | '(' :: _ => 1
  | '\\' :: c :: more =>
    if isLetter c then 2 + (more.takeWhile isLetterOrDigit).length else 2
  | _ => word

/-- The number of characters after the first one that belong to its piece. -/
def moreLength (c : Char) (rest : List Char) : Nat :=
  if isBlank c then (rest.takeWhile isBlank).length
  else if c = ';' then (rest.takeWhile (· != '\n')).length
  else if c = '#' then hashLength rest
  else if c = '(' || c = ')' || c = '[' || c = ']' || c = '\x27' || c = '\x60' then 0
  else if c = ',' then (if rest.head? = some '@' then 1 else 0)
  else if c = '\x22' then textLength rest
  else wordLength rest

def piecesFrom (offset : Nat) : List Char → List Span
  | [] => []
  | c :: rest =>
    let n := moreLength c rest
    let here := c :: rest.take n
    ⟨here, offset, offset + here.length⟩ :: piecesFrom (offset + here.length) (rest.drop n)
termination_by cs => cs.length
decreasing_by simp only [List.length_drop, List.length_cons]; omega

/-- Blanks and comments, and what begins like a block comment. -/
def isSkipped : List Char → Bool
  | ';' :: _ => true
  | '#' :: '|' :: _ => true
  | cs => allBlank cs

def tokens (text : List Char) : List Span := (piecesFrom 0 text).filter (!isSkipped ·.text)

end Scanner

namespace Span

def isOpener (s : Span) : Bool := s.text == ['('] || s.text == ['#', '('] || s.text == ['[']

def isCloser (s : Span) : Bool := s.text == [')'] || s.text == [']']

def isText (s : Span) : Bool := s.text.head? == some '\x22'

/-- A quote, an unquote or a datum comment: a mark in front of a form. -/
def isMark (s : Span) : Bool :=
  s.text == ['\x27'] || s.text == ['\x60'] || s.text == [','] || s.text == [',', '@'] ||
    s.text == ['#', ';']

/-- Whether the characters after an opening quote end with the quote that closes it. -/
def closesText : List Char → Bool
  | [] => false
  | '\\' :: rest =>
    match rest with
    | [] => false
    | _ :: more => closesText more
  | c :: rest => if c = '\x22' then rest.isEmpty else closesText rest

def isClosedText (s : Span) : Bool := closesText (s.text.drop 1)

end Span

end LiveScheme
