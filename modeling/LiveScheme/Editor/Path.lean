import LiveScheme.Text.Split

/-!
# Paths of documents

A document is known by an identifier of the form `scheme://host/path?query#fragment`, whose path
part names a file once its percent escapes are decoded. Escapes are bytes in UTF-8; bytes that make
no character become replacement characters.
-/

namespace LiveScheme.DocumentPath

def isSchemeChar (c : Char) : Bool := c.isAlphanum || c == '+' || c == '-' || c == '.'

/-- The scheme in small letters and what follows its colon. -/
def splitScheme (cs : List Char) : List Char × List Char :=
  match cs.takeWhile (· != ':'), cs.dropWhile (· != ':') with
  | c :: name, _ :: rest =>
    if c.isAlpha && name.all isSchemeChar then ((c :: name).map Char.toLower, rest) else ([], cs)
  | _, _ => ([], cs)

def dropHost : List Char → List Char
  | '/' :: '/' :: rest => rest.dropWhile fun c => !(c == '/' || c == '?' || c == '#')
  | cs => cs

def hexValue? (c : Char) : Option Nat :=
  if '0' ≤ c && c ≤ '9' then some (c.toNat - 48)
  else if 'a' ≤ c && c ≤ 'f' then some (c.toNat - 87)
  else if 'A' ≤ c && c ≤ 'F' then some (c.toNat - 55)
  else none

/-- A character or an escaped byte. -/
inductive Escaped
  | char (c : Char)
  | byte (n : Nat)
deriving DecidableEq

def escapedOf : List Char → List Escaped
  | '%' :: a :: b :: rest =>
    match hexValue? a, hexValue? b with
    | some x, some y => .byte (16 * x + y) :: escapedOf rest
    | _, _ => .char '%' :: escapedOf (a :: b :: rest)
  | c :: rest => .char c :: escapedOf rest
  | [] => []

/-- How many bytes must follow a first byte, the bits it gives, and the range of the next byte. -/
def lead? (n : Nat) : Option (Nat × Nat × Nat × Nat) :=
  if n < 0x80 then some (0, n, 0, 0)
  else if 0xC2 ≤ n && n ≤ 0xDF then some (1, n - 0xC0, 0x80, 0xBF)
  else if n == 0xE0 then some (2, 0, 0xA0, 0xBF)
  else if n == 0xED then some (2, 0xD, 0x80, 0x9F)
  else if 0xE1 ≤ n && n ≤ 0xEF then some (2, n - 0xE0, 0x80, 0xBF)
  else if n == 0xF0 then some (3, 0, 0x90, 0xBF)
  else if n == 0xF4 then some (3, 4, 0x80, 0x8F)
  else if 0xF1 ≤ n && n ≤ 0xF3 then some (3, n - 0xF0, 0x80, 0xBF)
  else none

/-- A character whose bytes are being read: its bits so far, how many bytes are missing, and the
range of the next one. -/
structure PendingChar where
  bits : Nat
  missing : Nat
  low : Nat
  high : Nat

def replacement : Char := '\ufffd'

def decodeFrom (part : Option PendingChar) : List Escaped → List Char
  | [] => if part.isSome then [replacement] else []
  | .char c :: rest =>
    (if part.isSome then [replacement] else []) ++ c :: decodeFrom none rest
  | .byte n :: rest =>
    let first (broken : List Char) : List Char :=
      match lead? n with
      | none => broken ++ replacement :: decodeFrom none rest
      | some (0, bits, _, _) => broken ++ Char.ofNat bits :: decodeFrom none rest
      | some (missing, bits, low, high) =>
        broken ++ decodeFrom (some ⟨bits, missing, low, high⟩) rest
    match part with
    | none => first []
    | some p =>
      if p.low ≤ n && n ≤ p.high then
        let bits := p.bits * 64 + (n - 0x80)
        if p.missing ≤ 1 then Char.ofNat bits :: decodeFrom none rest
        else decodeFrom (some ⟨bits, p.missing - 1, 0x80, 0xBF⟩) rest
      else first [replacement]

def decode (cs : List Char) : List Char := decodeFrom none (escapedOf cs)

/-- The schemes whose last path component may carry parameters. -/
def parameterSchemes : List String := [
  "", "ftp", "hdl", "prospero", "http", "https", "shttp", "rtsp", "rtsps", "rtspu", "sip", "sips",
  "mms", "sftp", "tel", "imap"]

/-- Drops what follows a semicolon in the last component. -/
def dropParameters (path : List Char) : List Char :=
  let last := (path.reverse.takeWhile (· != '/')).reverse
  path.take (path.length - last.length) ++ last.takeWhile (· != ';')

def isUnsafe (c : Char) : Bool := c == '\t' || c == '\r' || c == '\n'

/-- The path that an identifier names. -/
def ofIdentifier (uri : String) : String :=
  let cs := ((uri.toList.dropWhile (·.toNat ≤ 32)).filter (!isUnsafe ·))
  let (scheme, rest) := splitScheme cs
  let path := (dropHost rest).takeWhile fun c => !(c == '?' || c == '#')
  let path := if parameterSchemes.contains (String.ofList scheme) then dropParameters path else path
  String.ofList (decode path)

end LiveScheme.DocumentPath
