import LiveScheme.Datum.Basic
import LiveScheme.Datum.ReadError
import LiveScheme.Number.Literal

/-!
# Atoms

The datum that a single token denotes: words are numbers or symbols, and strings and characters
have escapes. A string escape `\x` takes hexadecimal digits up to a semicolon.
-/

namespace LiveScheme.Atom

open Text

/-- The base that the first two characters of a word announce. -/
def announcedBase? : List Char → Option Nat
  | '#' :: 'x' :: _ => some 16
  | '#' :: 'b' :: _ => some 2
  | '#' :: 'o' :: _ => some 8
  | '#' :: 'd' :: _ => some 10
  | _ => none

def isSign (c : Char) : Bool := c == '+' || c == '-'

/-- Decimal digits, after a sign or not. -/
def isInteger : List Char → Bool
  | [] => false
  | c :: rest => (c :: rest).all isDecimal || (isSign c && !rest.isEmpty && rest.all isDecimal)

/-- A word that is a real if it can be read as one. -/
def mayBeReal : List Char → Bool
  | [] => false
  | [c] => isDigit c
  | c :: d :: _ => isDigit c || ((isSign c || c == '.') && (isDigit d || d == '.'))

def word (cs : List Char) : Except ReadError Datum :=
  if isInteger cs then .ok (.int ((Literal.integer? 10 cs).getD 0))
  else match announcedBase? cs with
    | some base =>
      match Literal.integer? base (cs.drop 2) with
      | some n => .ok (.int n)
      | none => .error (.badNumber cs)
    | none =>
      match if mayBeReal cs then Literal.real? cs else none with
      | some x => .ok (.real x)
      | none => .ok (.sym (String.ofList cs))

/-- The character with the given code point. -/
def ofCodePoint (n : Int) : Except Fault Char :=
  if n < -0x80000000 || 0x80000000 ≤ n then .error .hugeCodePoint
  else if 0 ≤ n ∧ n.toNat.isValidChar then .ok (Char.ofNat n.toNat)
  else .error .badCodePoint

/-- The character whose code point is written in hexadecimal. -/
def ofHex (cs : List Char) : Except Fault Char :=
  match Literal.integer? 16 cs with
  | some n => ofCodePoint n
  | none => .error (.badNumeral (String.ofList (quoted cs)) 16)

def namedChar? (name : String) : Option Char :=
  [("space", ' '), ("newline", '\n'), ("tab", '\t'), ("return", '\r'), ("nul", '\x00'),
    ("null", '\x00'), ("alarm", '\x07'), ("backspace", '\x08'), ("delete", '\x7f'),
    ("escape", '\x1b')].lookup name

/-- The character that the part of a token after its sign and backslash denotes. -/
def char (cs : List Char) : Except ReadError Char :=
  match cs with
  | [c] => .ok c
  | _ =>
    match namedChar? (String.ofList (cs.map Char.toLower)) with
    | some c => .ok c
    | none =>
      match cs with
      | 'x' :: digits => (ofHex digits).mapError .fault
      | _ => .error (.badCharName cs)

def escaped (c : Char) : Char :=
  if c = 'n' then '\n'
  else if c = 't' then '\t'
  else if c = 'r' then '\r'
  else if c = 'a' then '\x07'
  else if c = 'b' then '\x08'
  else if c = '0' then '\x00'
  else c

def isIndent (c : Char) : Bool := c == ' ' || c == '\t'

/-- What is before the first semicolon and what is after it. -/
def splitSemicolon (cs : List Char) : Option (List Char × List Char) :=
  match cs.dropWhile (· != ';') with
  | [] => none
  | _ :: rest => some (cs.takeWhile (· != ';'), rest)

theorem splitSemicolon_length {cs digits rest : List Char}
    (h : splitSemicolon cs = some (digits, rest)) : rest.length < cs.length := by
  unfold splitSemicolon at h
  split at h
  · cases h
  · next heq =>
    cases h
    have := (List.dropWhile_sublist (l := cs) (· != ';')).length_le
    rw [heq] at this
    simp only [List.length_cons] at this
    omega

/-- The characters of a string from the characters between its quotes. -/
def unescape : List Char → Except Fault (List Char)
  | '\\' :: 'x' :: rest =>
    match _h : splitSemicolon rest with
    | some (digits, more) => do
      let c ← ofHex digits
      return c :: (← unescape more)
    | none => do return 'x' :: (← unescape rest)
  | '\\' :: '\n' :: rest => unescape (rest.dropWhile isIndent)
  | '\\' :: c :: rest => do return escaped c :: (← unescape rest)
  | c :: rest => do return c :: (← unescape rest)
  | [] => .ok []
termination_by cs => cs.length
decreasing_by
  · have := splitSemicolon_length _h; simp only [List.length_cons]; omega
  · simp only [List.length_cons]; omega
  · have := (List.dropWhile_sublist (l := rest) isIndent).length_le
    simp only [List.length_cons]; omega
  · simp only [List.length_cons]; omega
  · simp only [List.length_cons]; omega

end LiveScheme.Atom
