import LiveScheme.Datum.Basic
import LiveScheme.Decimal.Shortest

/-!
# External representations

The readable form reads back as an equal datum; the displayed form shows strings and characters
as they are. Objects are shown by a text of their own, or, when they have none, by the values they
hold, with spaces between them.
-/

namespace LiveScheme

namespace Printer

def charName? (c : Char) : Option String :=
  if c = ' ' then some "space"
  else if c = '\n' then some "newline"
  else if c = '\t' then some "tab"
  else if c = '\r' then some "return"
  else if c = '\x00' then some "null"
  else if c = '\x07' then some "alarm"
  else if c = '\x08' then some "backspace"
  else if c = '\x7f' then some "delete"
  else if c = '\x1b' then some "escape"
  else none

def writeChar (c : Char) : List Char :=
  '#' :: '\\' :: match charName? c with
    | some name => name.toList
    | none => [c]

def escapeChar (c : Char) : List Char :=
  if c = '\\' then ['\\', '\\']
  else if c = '\x22' then ['\\', '\x22']
  else if c = '\n' then ['\\', 'n']
  else if c = '\t' then ['\\', 't']
  else if c = '\r' then ['\\', 'r']
  else [c]

def escape (cs : List Char) : List Char := cs.flatMap escapeChar

def writeText (cs : List Char) : List Char := '\x22' :: escape cs ++ ['\x22']

def writeReal (x : Float) : List Char :=
  if x.isNaN then "+nan.0".toList
  else if x.isInf then (if 0 < x then "+inf.0".toList else "-inf.0".toList)
  else Decimal.writeFinite x

end Printer

open Printer

namespace Node

variable {ι ρ : Type}

mutual

/-- The representation of a tree; `name` gives the text of an object. -/
def chars (name : ρ → Option String) (readable : Bool) : Node ι ρ → List Char
  | bool b => if b then ['#', 't'] else ['#', 'f']
  | int n => (toString n).toList
  | real _ x => writeReal x
  | str _ text => if readable then writeText text.toList else text.toList
  | char c => if readable then writeChar c else [c]
  | sym x => x.toList
  | list _ items => '(' :: itemsChars name readable items ++ [')']
  | vector _ items => '#' :: '(' :: itemsChars name readable items ++ [')']
  | improper _ items tail =>
    '(' :: itemsChars name readable items ++ [' ', '.', ' '] ++ chars name readable tail ++ [')']
  | object kind parts =>
    match name kind with
    | some text => text.toList
    | none => itemsChars name readable parts

def itemsChars (name : ρ → Option String) (readable : Bool) : List (Node ι ρ) → List Char
  | [] => []
  | x :: rest =>
    chars name readable x ++
      match rest with
      | [] => []
      | _ => ' ' :: itemsChars name readable rest

end

end Node

def Datum.write (d : Datum) : String := String.ofList (Node.chars Empty.elim true d)

def Datum.display (d : Datum) : String := String.ofList (Node.chars Empty.elim false d)

end LiveScheme
