import LiveScheme.Text.Printable

/-!
# Quoted texts in messages

A message that names a text shows it between single quotes, or between double quotes when it holds
single ones only. Characters that cannot be shown stand as escapes with two, four or eight
hexadecimal digits.
-/

namespace LiveScheme.Text

def hexDigit (n : Nat) : Char := Char.ofNat (if n < 10 then 48 + n else 87 + n)

/-- The lowest `width` hexadecimal digits of `n`. -/
def hexDigits : Nat → Nat → List Char
  | 0, _ => []
  | width + 1, n => hexDigits width (n / 16) ++ [hexDigit (n % 16)]

def numericEscape (n : Nat) : List Char :=
  if n ≤ 0xFF then '\\' :: 'x' :: hexDigits 2 n
  else if n ≤ 0xFFFF then '\\' :: 'u' :: hexDigits 4 n
  else '\\' :: 'U' :: hexDigits 8 n

def quoteFor (cs : List Char) : Char :=
  if cs.contains '\x27' && !cs.contains '\x22' then '\x22' else '\x27'

def quotedChar (mark c : Char) : List Char :=
  if c = mark || c = '\\' then ['\\', c]
  else if c = '\t' then ['\\', 't']
  else if c = '\n' then ['\\', 'n']
  else if c = '\r' then ['\\', 'r']
  else if isPrintable c then [c]
  else numericEscape c.toNat

def quoted (cs : List Char) : List Char :=
  let mark := quoteFor cs
  mark :: cs.flatMap (quotedChar mark) ++ [mark]

def quotedString (s : String) : String := String.ofList (quoted s.toList)

end LiveScheme.Text
