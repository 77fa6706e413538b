import LiveScheme.Buffer.Position
import LiveScheme.Fault
import LiveScheme.Text.Blank
import LiveScheme.Text.Lines

/-!
# The line around a cursor

What an editor asks about stands on one line: the word at a position, the word being typed, the
procedure of the innermost call, and the module being imported. Lines end at every vertical
separator here.
-/

namespace LiveScheme.Buffer

open Text

def lineAt? (text : List Char) (line : Nat) : Option (List Char) := (lines text)[line]?

/-- The part of the position's line before it; empty beyond the last line. -/
def linePrefix (text : List Char) (p : Position) : List Char :=
  ((lineAt? text p.line).getD []).take p.column

def isDelimiter (c : Char) : Bool := " \t()[]'\x60,\x22\n\r".toList.contains c

/-- The longest end of the text whose characters all satisfy `keep`. -/
def takeEnd (keep : Char → Bool) (cs : List Char) : List Char :=
  (cs.reverse.takeWhile keep).reverse

/-- The longest run without delimiters around a column of a line, and where it starts. A column
beyond the end of the line is a fault. -/
def wordAround (line : List Char) (column : Nat) : Except Fault (List Char × Nat) :=
  if line.length < column then .error .offEnd
  else
    let before := takeEnd (!isDelimiter ·) (line.take column)
    let after := (line.drop column).takeWhile (!isDelimiter ·)
    .ok (before ++ after, column - before.length)

/-- The word at a position, if there is one, and the position where it starts. -/
def wordAt (text : List Char) (p : Position) : Except Fault (Option (List Char) × Position) :=
  match lineAt? text p.line with
  | none => .ok (none, p)
  | some line => do
    let (word, start) ← wordAround line p.column
    return (if word.isEmpty then none else some word, ⟨p.line, start⟩)

def dropFinalFeed (cs : List Char) : List Char :=
  if cs.getLast? = some '\n' then cs.dropLast else cs

def isTyped (c : Char) : Bool := !(isBlank c || "()[]'\x60,\x22".toList.contains c)

/-- The word that ends at the end of a line prefix. -/
def currentWord (before : List Char) : List Char := takeEnd isTyped (dropFinalFeed before)

def importHeads : List (List Char) := ["import".toList, "select-module".toList]

/-- What follows one of the heads of module forms. -/
def afterImportHead? (cs : List Char) : Option (List Char) :=
  importHeads.findSome? fun head =>
    if head.isPrefixOf cs then some (cs.drop head.length) else none

def isModuleStem (c : Char) : Bool := !(isBlank c || c == '(' || c == ')')

/-- The unfinished module name after the head of a form, when nothing follows it. -/
def stemOf? (cs : List Char) : Option (List Char) :=
  let name := cs.dropWhile isBlank
  if name.length = cs.length then none
  else
    let name := if name.head? = some '(' then name.drop 1 else name
    let after := name.dropWhile isModuleStem
    if after.isEmpty || after = ['\n'] then some (name.takeWhile isModuleStem) else none

/-- The start of a module name that a line prefix ends in, inside an import or a selection. -/
def moduleStem? : List Char → Option (List Char)
  | [] => none
  | c :: rest =>
    match if c = '(' then (afterImportHead? rest).bind stemOf? else none with
    | some stem => some stem
    | none => moduleStem? rest

def isOpening (c : Char) : Bool := c == '(' || c == '['

/-- The first word after the last opening bracket of a line prefix. -/
def callee? (before : List Char) : Option (List Char) :=
  if before.any isOpening then
    let call := trim (takeEnd (!isOpening ·) before)
    let word := call.takeWhile fun c => !(isBlank c || isOpening c || c == ')' || c == ']')
    if word.isEmpty then none else some word
  else none

end LiveScheme.Buffer
