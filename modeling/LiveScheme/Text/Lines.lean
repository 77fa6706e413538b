/-!
# Lines

A text is cut into lines after each line end. Which characters end a line is a parameter of the
reader: documents and replies end lines at every vertical separator, streams at the line feed only.
A carriage return and the line feed after it end one line together.
-/

namespace LiveScheme.Text

def endsLine (c : Char) : Bool :=
  c == '\n' || c == '\r' || c == '\x0b' || c == '\x0c' || c == '\x1c' || c == '\x1d' ||
    c == '\x1e' || c == '\u0085' || c == '\u2028' || c == '\u2029'

/-- Lines with their ends; `line` holds the characters of the current line, last one first. -/
def linesFrom (line : List Char) : List Char → List (List Char)
  | [] => if line.isEmpty then [] else [line.reverse]
  | '\r' :: '\n' :: rest => ('\n' :: '\r' :: line).reverse :: linesFrom [] rest
  | c :: rest =>
    if endsLine c then (c :: line).reverse :: linesFrom [] rest else linesFrom (c :: line) rest

def lines (cs : List Char) : List (List Char) := linesFrom [] cs

def feedLinesFrom (line : List Char) : List Char → List (List Char)
  | [] => if line.isEmpty then [] else [line.reverse]
  | c :: rest =>
    if c = '\n' then (c :: line).reverse :: feedLinesFrom [] rest
    else feedLinesFrom (c :: line) rest

/-- Lines that end at the line feed only, with their ends. -/
def feedLines (cs : List Char) : List (List Char) := feedLinesFrom [] cs

theorem flatten_feedLinesFrom (line cs : List Char) :
    (feedLinesFrom line cs).flatten = line.reverse ++ cs := by
  induction cs generalizing line with
  | nil => cases line <;> simp [feedLinesFrom]
  | cons c rest ih => by_cases h : c = '\n' <;> simp [feedLinesFrom, h, ih]

theorem flatten_feedLines (cs : List Char) : (feedLines cs).flatten = cs := by
  simp [feedLines, flatten_feedLinesFrom]

/-- Both foreign line ends, a return with or without its line feed, become the line feed. -/
def unifyLineEnds : List Char → List Char
  | [] => []
  | '\r' :: '\n' :: rest => '\n' :: unifyLineEnds rest
  | c :: rest => (if c = '\r' then '\n' else c) :: unifyLineEnds rest

end LiveScheme.Text
