import LiveScheme.Text.CharClass

/-!
# Blank characters

The characters that separate words in every script, the four information separators and the next
line control included. Trimming removes them from the ends of a text.
-/

namespace LiveScheme.Text

def blankRanges : List (Nat × Nat) := [
  (0x9, 0xD), (0x1C, 0x20), (0x85, 0x85), (0xA0, 0xA0), (0x1680, 0x1680), (0x2000, 0x200A),
  (0x2028, 0x2029), (0x202F, 0x202F), (0x205F, 0x205F), (0x3000, 0x3000)]

def isBlank (c : Char) : Bool := inRanges blankRanges c

def trimStart (cs : List Char) : List Char := cs.dropWhile isBlank

/-- Drops the longest end of the text whose characters all satisfy `p`. -/
def dropEnd (p : Char → Bool) (cs : List Char) : List Char := (cs.reverse.dropWhile p).reverse

def trim (cs : List Char) : List Char := dropEnd isBlank (trimStart cs)

def allBlank (cs : List Char) : Bool := cs.all isBlank

end LiveScheme.Text
