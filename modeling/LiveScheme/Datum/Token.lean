import LiveScheme.Datum.ReadError
import LiveScheme.Text.Blank

/-!
# Tokens

A text is a sequence of tokens between blanks and comments. Block comments nest. Scanning answers
the tokens before the first error together with that error, so that a reader who stops early never
meets it.
-/

namespace LiveScheme

open Text

inductive TokenKind
  | datumComment
  | quote
  | unquote
  | vectorOpen
  | listOpen
  | close
  | text
  | char
  | bool
  | word
deriving DecidableEq, Repr

structure Token where
  kind : TokenKind
  text : List Char
deriving DecidableEq, Repr

namespace Token

/-- A character that separates words by itself, whatever stands around it. -/
def isBreak (c : Char) : Bool :=
  isBlank c || c == '(' || c == ')' || c == '[' || c == ']' || c == '\x22' || c == ';'

def isWordChar (c : Char) : Bool := !(isBreak c || c == '\x27' || c == '\x60' || c == ',')

def isLetter (c : Char) : Bool := ('a' ≤ c && c ≤ 'z') || ('A' ≤ c && c ≤ 'Z')

def isLetterOrDigit (c : Char) : Bool := isLetter c || ('0' ≤ c && c ≤ '9')

/-- What stands at the start of a text without leading blanks. -/
inductive Lexeme
  | ended
  | skipped (rest : List Char)
  | token (t : Token) (rest : List Char)
  | gap (gap : Gap)
  | dangling

/-- The rest after the end of a block comment that is `depth + 1` levels deep. -/
def afterBlock (depth : Nat) : List Char → Option (List Char)
  | [] => none
  | '#' :: '|' :: rest => afterBlock (depth + 1) rest
  | '|' :: '#' :: rest =>
    match depth with
    | 0 => some rest
    | depth + 1 => afterBlock depth rest
  | _ :: rest => afterBlock depth rest

/-- A string from after its opening quote; `body` holds its characters so far, last one first. -/
def scanText (body : List Char) : List Char → Lexeme
  | [] => .gap .text
  | '\\' :: rest =>
    match rest with
    | [] => .dangling
    | c :: more => scanText (c :: '\\' :: body) more
  | c :: rest =>
    if c = '\x22' then .token ⟨.text, ('\x22' :: body.reverse) ++ ['\x22']⟩ rest
    else scanText (c :: body) rest

def scanChar (c : Char) (rest : List Char) : Lexeme :=
  let name := if isLetter c then rest.takeWhile isLetterOrDigit else []
  .token ⟨.char, '#' :: '\\' :: c :: name⟩ (rest.drop name.length)

def boolWords : List (List Char) :=
  [['#', 't'], ['#', 't', 'r', 'u', 'e'], ['#', 'f'], ['#', 'f', 'a', 'l', 's', 'e']]

/-- A word from its first character on; truth values are words that reach to a break. -/
def scanWord (c : Char) (rest : List Char) : Lexeme :=
  let whole := c :: rest.takeWhile fun c => !isBreak c
  if boolWords.contains whole then .token ⟨.bool, whole⟩ (rest.drop (whole.length - 1))
  else .token ⟨.word, c :: rest.takeWhile isWordChar⟩ (rest.dropWhile isWordChar)

/-- What begins with a number sign; `rest` follows the sign. -/
def scanHash (rest : List Char) : Lexeme :=
  match rest with
  | '|' :: more =>
    match afterBlock 0 more with
    | some left => .skipped left
    | none => .gap .blockComment
  | ';' :: more => .token ⟨.datumComment, ['#', ';']⟩ more
  | '(' :: more => .token ⟨.vectorOpen, ['#', '(']⟩ more
  | '\\' :: c :: more => scanChar c more
  | _ => scanWord '#' rest

def scanComma : List Char → Lexeme
  | '@' :: rest => .token ⟨.unquote, [',', '@']⟩ rest
  | rest => .token ⟨.unquote, [',']⟩ rest

def scan : List Char → Lexeme
  | [] => .ended
  | c :: rest =>
    if c = ';' then .skipped (rest.dropWhile (· != '\n'))
    else if c = '#' then scanHash rest
    else if c = '\x27' || c = '\x60' then .token ⟨.quote, [c]⟩ rest
    else if c = ',' then scanComma rest
    else if c = '(' || c = '[' then .token ⟨.listOpen, [c]⟩ rest
    else if c = ')' || c = ']' then .token ⟨.close, [c]⟩ rest
    else if c = '\x22' then scanText [] rest
    else scanWord c rest

/-- What is left after the lexeme. -/
def Lexeme.rest? : Lexeme → Option (List Char)
  | skipped rest | token _ rest => some rest
  | _ => none

theorem length_dropWhile_le (p : Char → Bool) (cs : List Char) :
    (cs.dropWhile p).length ≤ cs.length :=
  (List.dropWhile_sublist p).length_le

theorem afterBlock_length {depth : Nat} {cs left : List Char}
    (h : afterBlock depth cs = some left) : left.length < cs.length := by
  fun_induction afterBlock depth cs with
  | case1 => cases h
  | case2 depth rest ih => have := ih h; simp only [List.length_cons]; omega
  | case3 rest => cases h; simp only [List.length_cons]; omega
  | case4 rest depth ih => have := ih h; simp only [List.length_cons]; omega
  | case5 depth c rest _ _ ih => have := ih h; simp only [List.length_cons]; omega

theorem scanText_rest {body cs left : List Char} (h : (scanText body cs).rest? = some left) :
    left.length < cs.length := by
  fun_induction scanText body cs with
  | case1 => cases h
  | case2 => cases h
  | case3 body c more ih => have := ih h; simp only [List.length_cons]; omega
  | case4 body rest => cases h; simp
  | case5 body c rest _ _ ih => have := ih h; simp only [List.length_cons]; omega

theorem scanWord_rest {c : Char} {cs left : List Char} (h : (scanWord c cs).rest? = some left) :
    left.length ≤ cs.length := by
  simp only [scanWord] at h
  split at h <;> cases h
  · simp
  · exact length_dropWhile_le _ _

theorem scanHash_rest {cs left : List Char} (h : (scanHash cs).rest? = some left) :
    left.length ≤ cs.length := by
  unfold scanHash at h
  split at h
  · next more =>
    split at h
    · next hb => cases h; have := afterBlock_length hb; simp only [List.length_cons]; omega
    · cases h
  · cases h; simp
  · cases h; simp
  · cases h; simp only [List.length_drop, List.length_cons]; omega
  · exact scanWord_rest h

theorem scanComma_rest {cs left : List Char} (h : (scanComma cs).rest? = some left) :
    left.length ≤ cs.length := by
  unfold scanComma at h
  split at h <;> cases h
  · simp
  · exact Nat.le_refl _

theorem scan_rest {cs left : List Char} (h : (scan cs).rest? = some left) :
    left.length < cs.length := by
  cases cs with
  | nil => cases h
  | cons c rest =>
    refine Nat.lt_succ_of_le ?_
    simp only [scan] at h
    repeat' split at h
    · cases h; exact length_dropWhile_le _ _
    · exact scanHash_rest h
    · cases h; exact Nat.le_refl _
    · exact scanComma_rest h
    · cases h; exact Nat.le_refl _
    · cases h; exact Nat.le_refl _
    · exact Nat.le_of_lt (scanText_rest h)
    · exact scanWord_rest h

theorem scan_trimStart_rest {cs left : List Char} (h : (scan (trimStart cs)).rest? = some left) :
    left.length < cs.length :=
  Nat.lt_of_lt_of_le (scan_rest h) (length_dropWhile_le _ _)

end Token

/-- The tokens of a text before its first error, and that error. -/
structure Lexed where
  tokens : List Token
  failure : Option ReadError

namespace Lexed

def cons (t : Token) (l : Lexed) : Lexed := ⟨t :: l.tokens, l.failure⟩

/-- Scans the rest `cs` of a text of length `total`. -/
def scanFrom (total : Nat) (cs : List Char) : Lexed :=
  match _h : Token.scan (trimStart cs) with
  | .ended => ⟨[], none⟩
  | .skipped rest => scanFrom total rest
  | .token t rest => cons t (scanFrom total rest)
  | .gap gap => ⟨[], some (.incomplete gap)⟩
  | .dangling => ⟨[], some (.unexpectedChar (total - cs.length) (cs.headD ' '))⟩
termination_by cs.length
decreasing_by
  all_goals exact Token.scan_trimStart_rest (by simp [_h, Token.Lexeme.rest?])

def ofText (cs : List Char) : Lexed := scanFrom cs.length cs

end Lexed

end LiveScheme
