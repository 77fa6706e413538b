/-!
# Positions in buffers

An offset counts characters from the start of a text; a position is a line and a column, both from
zero, where lines end at line feeds only.
-/

namespace LiveScheme.Buffer

structure Position where
  line : Nat
  column : Nat
deriving DecidableEq, Repr

def positionFrom (p : Position) : Nat → List Char → Position
  | 0, _ | _, [] => p
  | n + 1, c :: rest =>
    if c = '\n' then positionFrom ⟨p.line + 1, 0⟩ n rest
    else positionFrom ⟨p.line, p.column + 1⟩ n rest

/-- The position of an offset. -/
def positionOf (text : List Char) (offset : Nat) : Position := positionFrom ⟨0, 0⟩ offset text

/-- The offset of the start of a line; none beyond the last line. -/
def lineStart (offset : Nat) : Nat → List Char → Option Nat
  | 0, _ => some offset
  | _ + 1, [] => none
  | line + 1, c :: rest =>
    if c = '\n' then lineStart (offset + 1) line rest else lineStart (offset + 1) (line + 1) rest

/-- The offset of a column of a line, moved to the end of the text when it lies beyond. -/
def offsetOf (text : List Char) (line column : Int) : Int :=
  match lineStart 0 line.toNat text with
  | some start => min (start + column) text.length
  | none => text.length

end LiveScheme.Buffer
