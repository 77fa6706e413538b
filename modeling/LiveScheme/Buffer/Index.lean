import LiveScheme.Buffer.Position
import LiveScheme.Buffer.Scanner

/-!
# What a buffer defines

The structure of a buffer read from its tokens: where a form closes, which forms are open at an
offset, the module around an offset, and the names that the buffer defines. Parentheses and square
brackets share one depth, so either may close the other.
-/

namespace LiveScheme.Buffer

/-- The start of the token that closes the form opened at the first token of the list. -/
def closingStart (depth : Nat) : List Span → Option Nat
  | [] => none
  | t :: rest =>
    if t.isOpener then closingStart (depth + 1) rest
    else if t.isCloser then
      if depth ≤ 1 then some t.start else closingStart (depth - 1) rest
    else closingStart depth rest

/-- The text from an offset on; a negative offset counts from the end. -/
def dropTo (text : List Char) (offset : Int) : List Char :=
  text.drop (if offset < 0 then (offset + text.length).toNat else offset.toNat)

/-- The offset of the delimiter that closes the form at `offset`, or the end of the text. -/
def matchingClose (text : List Char) (offset : Int) : Int :=
  match closingStart 0 (Scanner.tokens (dropTo text offset)) with
  | some start => offset + start
  | none => text.length

def moduleHeads : List (List Char) := ["define-module".toList, "define-library".toList]

def definitionHeads : List (List Char) :=
  ["define".toList, "define-macro".toList] ++ moduleHeads

/-- A form that is open, with its first token and, in a module form, the module's name. -/
structure OpenForm where
  start : Nat
  head : Option (List Char)
  name : Option (List Char)
deriving DecidableEq, Repr

namespace OpenForm

def isModule (f : OpenForm) : Bool := f.head.any moduleHeads.contains

def awaitsName (f : OpenForm) : Bool := f.isModule && f.name.isNone

end OpenForm

/-- The text of the form that opens at an offset. -/
def formAt (text : List Char) (start : Nat) : List Char :=
  (text.take ((matchingClose text start).toNat + 1)).drop start

/-- Gives a name to the innermost form if it still waits for one. -/
def nameInnermost (name : List Char) : List OpenForm → List OpenForm
  | [] => []
  | f :: rest => (if f.awaitsName then { f with name := some name } else f) :: rest

def noteWord (word : List Char) : List OpenForm → List OpenForm
  | [] => []
  | f :: rest =>
    match f.head with
    | none => { f with head := some word } :: rest
    | some _ => nameInnermost word (f :: rest)

/-- The open forms after one more token, innermost first. -/
def noteToken (text : List Char) (stack : List OpenForm) (t : Span) : List OpenForm :=
  if t.isOpener then
    let stack := match stack with
      | f :: rest =>
        if f.awaitsName then nameInnermost (formAt text t.start) (f :: rest) else f :: rest
      | [] => []
    ⟨t.start, none, none⟩ :: stack
  else if t.isCloser then stack.drop 1
  else if t.isMark then stack
  else noteWord t.text stack

/-- The forms open at an offset, innermost first. -/
def openForms (text : List Char) (offset : Nat) : List OpenForm :=
  ((Scanner.tokens text).takeWhile (·.start < offset)).foldl (noteToken text) []

/-- The name of the module around an offset, as it is written. -/
def moduleAt (text : List Char) (offset : Nat) : Option (List Char) :=
  ((openForms text offset).find? fun f => f.isModule && f.name.isSome).bind (·.name)

inductive DefinitionKind
  | variable
  | function
  | expander
  | space
deriving DecidableEq, Repr

structure Definition where
  name : List Char
  kind : DefinitionKind
  position : Position
deriving DecidableEq, Repr

structure Index where
  symbols : List Definition
  modules : List Definition
  balance : Int
  unmatchedQuote : Bool

namespace Index

def empty : Index := ⟨[], [], 0, false⟩

/-- Replaces the definition of the same name in place, or adds one at the end. -/
def putDefinition (d : Definition) : List Definition → List Definition
  | [] => [d]
  | e :: rest => if e.name = d.name then d :: rest else e :: putDefinition d rest

def isName (word : List Char) : Bool :=
  !(word == ['('] || word == ['#', '('] || word == ['['] || word == [')'] || word == [']'] ||
    word.head? == some '\x22')

/-- The name defined by a form with the given head, from the tokens after the head. -/
def definedName (text : List Char) (isModule : Bool) : List Span →
    Option (List Char × Nat × DefinitionKind)
  | [] => none
  | t :: rest =>
    if t.isOpener then
      if isModule then some (formAt text t.start, t.start, .variable)
      else match rest with
        | n :: _ => some (n.text, n.start, .function)
        | [] => none
    else some (t.text, t.start, .variable)

/-- Notes the definition that an opener begins, from the tokens after it. -/
def noteDefinition (text : List Char) (idx : Index) : List Span → Index
  | [] => idx
  | head :: rest =>
    if !definitionHeads.contains head.text then idx
    else
      let isModule := moduleHeads.contains head.text
      match definedName text isModule rest with
      | none => idx
      | some (name, start, kind) =>
        if !isName name then idx
        else
          let position := positionOf text start
          if isModule then
            { idx with modules := idx.modules ++ [⟨name, .space, position⟩] }
          else
            let kind := if head.text = "define-macro".toList then .expander else kind
            { idx with symbols := putDefinition ⟨name, kind, position⟩ idx.symbols }

def build (text : List Char) (idx : Index) : List Span → Index
  | [] => idx
  | t :: rest =>
    let idx :=
      if t.isOpener then
        noteDefinition text { idx with balance := idx.balance + 1 } rest
      else if t.isCloser then { idx with balance := idx.balance - 1 }
      else if t.isText && !t.isClosedText then { idx with unmatchedQuote := true }
      else idx
    build text idx rest

def ofText (text : List Char) : Index := build text empty (Scanner.tokens text)

end Index

end LiveScheme.Buffer
