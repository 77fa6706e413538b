import LiveScheme.Text.Blank
import LiveScheme.Text.Digit
import LiveScheme.Decimal.Binary

/-!
# Number literals

The written forms of integers in a base and of decimal reals. Digits of all scripts count, blanks
around a literal are ignored, and single underscores may stand between digits. The separators
`U+001C` to `U+001F` are no blanks here.
-/

namespace LiveScheme.Literal

open Text Decimal

/-- Foreign digits and blanks become ASCII ones; other foreign characters never fit a literal. -/
def plain (c : Char) : Char :=
  if c.toNat < 128 then c
  else if isBlank c then ' '
  else match decimalValue? c with
    | some d => Char.ofNat (48 + d)
    | none => '?'

def isPlainBlank (c : Char) : Bool := c == ' ' || ('\t' ≤ c && c ≤ '\r')

def plainText (cs : List Char) : List Char :=
  dropEnd isPlainBlank ((cs.map plain).dropWhile isPlainBlank)

def splitSign : List Char → Bool × List Char
  | '-' :: rest => (true, rest)
  | '+' :: rest => (false, rest)
  | cs => (false, cs)

def digitIn? (base : Nat) (c : Char) : Option Nat :=
  (baseDigitValue? c).filter (· < base)

def digitsFrom (base : Nat) (value : Nat) : List Char → Option Nat
  | [] => some value
  | '_' :: c :: rest => (digitIn? base c).bind fun d => digitsFrom base (value * base + d) rest
  | c :: rest => (digitIn? base c).bind fun d => digitsFrom base (value * base + d) rest

/-- The value of a run of digits that begins and ends with one. -/
def digits? (base : Nat) : List Char → Option Nat
  | [] => none
  | c :: rest => (digitIn? base c).bind fun d => digitsFrom base d rest

/-- The letters that may follow a zero to repeat the base. -/
def baseMarks : Nat → List Char
  | 16 => ['x', 'X']
  | 8 => ['o', 'O']
  | 2 => ['b', 'B']
  | _ => []

def dropBaseMark (base : Nat) : List Char → List Char
  | '0' :: mark :: rest =>
    if (baseMarks base).contains mark then
      match rest with
      | '_' :: more => more
      | _ => rest
    else '0' :: mark :: rest
  | cs => cs

/-- The integer written in the given base. -/
def integer? (base : Nat) (cs : List Char) : Option Int :=
  let (negative, body) := splitSign (plainText cs)
  (digits? base (dropBaseMark base body)).map fun n => if negative then -(n : Int) else n

def isPlainDigit (c : Char) : Bool := '0' ≤ c && c ≤ '9'

/-- Drops the underscores of a literal; none when one does not stand between two digits. -/
def dropUnderscores (afterDigit : Bool) : List Char → Option (List Char)
  | [] => some []
  | '_' :: c :: rest =>
    if afterDigit && isPlainDigit c then (dropUnderscores true rest).map (c :: ·) else none
  | c :: rest =>
    if c = '_' then none else (dropUnderscores (isPlainDigit c) rest).map (c :: ·)

def decimalDigits (cs : List Char) : List Char × List Char :=
  (cs.takeWhile isPlainDigit, cs.dropWhile isPlainDigit)

def digitsValue (cs : List Char) : Nat := cs.foldl (fun n c => 10 * n + (c.toNat - 48)) 0

/-- The exponent written at the end of a real; zero when nothing is left. -/
def exponent? : List Char → Option Int
  | [] => some 0
  | c :: rest =>
    if c = 'e' || c = 'E' then
      let (negative, body) := splitSign rest
      if body.isEmpty || !body.all isPlainDigit then none
      else some (if negative then -(digitsValue body : Int) else digitsValue body)
    else none

/-- The float nearest to `digits · 10 ^ exponent`. Exponents far outside the range of floats are
decided without computing the power. -/
def decimalFloat (digits : Nat) (exponent : Int) : Float :=
  let size : Int := (Nat.toDigits 10 digits).length + exponent
  if digits = 0 || size < -400 then 0
  else if 400 < size then infinity
  else (nearestFloat? (digits * tenTo exponent.toNat) (tenTo (-exponent).toNat)).getD infinity

def finite? (cs : List Char) : Option Float :=
  let (whole, rest) := decimalDigits cs
  let (fraction, rest) := match rest with
    | '.' :: more => decimalDigits more
    | _ => ([], rest)
  if whole.isEmpty && fraction.isEmpty then none
  else (exponent? rest).map fun e =>
    decimalFloat (digitsValue (whole ++ fraction)) (e - fraction.length)

def magnitude? (cs : List Char) : Option Float :=
  let lower := String.ofList (cs.map Char.toLower)
  if lower = "inf" || lower = "infinity" then some infinity
  else if lower = "nan" then some notANumber
  else finite? cs

/-- The real written by the text. -/
def real? (cs : List Char) : Option Float :=
  (dropUnderscores false (plainText cs)).bind fun body =>
    let (negative, rest) := splitSign body
    (magnitude? rest).map fun x => if negative then -x else x

end LiveScheme.Literal
