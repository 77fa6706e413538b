/-!
# Faults

A fault is a failure below the Scheme level: a host operation was given something that it cannot
work on. A request that faults is answered with the fault's text, and outside a request the fault
ends the evaluation. Each cause belongs to one category.
-/

namespace LiveScheme

/-- Why a file cannot be opened. -/
inductive FileProblem
  | missing
  | isDirectory
  | notDirectory
deriving DecidableEq, Repr

def FileProblem.reason : FileProblem → String
  | .missing => "No such file or directory"
  | .isDirectory => "Is a directory"
  | .notDirectory => "Not a directory"

def FileProblem.code : FileProblem → Nat
  | .missing => 2
  | .isDirectory => 21
  | .notDirectory => 20

inductive Fault
  | noElements (what : String)
  | noFirst (what : String)
  | badBound
  | badFileName
  | badOperand
  | emptySequence
  | offEnd
  | noName
  | noSection (name : String)
  | badNumeral (quoted : String) (base : Nat)
  | badCodePoint
  | zeroByteInName
  | closedReader
  | badCommand (message : String)
  | hugeCodePoint
  | hugeNumber
  | hugeQuotient
  | file (problem : FileProblem) (quotedPath : String)
deriving DecidableEq, Repr

namespace Fault

inductive Category
  | wrongType
  | badValue
  | badIndex
  | missingPart
  | overflow
  | file (problem : FileProblem)
deriving DecidableEq, Repr

def category : Fault → Category
  | noElements _ | noFirst _ | badBound | badFileName | badOperand => .wrongType
  | emptySequence | offEnd => .badIndex
  | noName | noSection _ => .missingPart
  | badNumeral _ _ | badCodePoint | zeroByteInName | closedReader | badCommand _ => .badValue
  | hugeCodePoint | hugeNumber | hugeQuotient => .overflow
  | file problem _ => .file problem

def message : Fault → String
  | noElements what => "a " ++ what ++ " has no elements"
  | noFirst what => "a " ++ what ++ " has no first element"
  | badBound => "a bound of a substring must be an integer"
  | badFileName => "a file name must be a string"
  | badOperand => "unsupported operand"
  | emptySequence => "an empty sequence has no first element"
  | offEnd => "the position is beyond the end of the text"
  | noName => "the object has no name"
  | noSection name => "the entry has no section " ++ name
  | badNumeral quoted base => "no numeral in base " ++ toString base ++ ": " ++ quoted
  | badCodePoint => "no character has this code point"
  | zeroByteInName => "a file name contains a zero byte"
  | closedReader => "the reader is closed"
  | badCommand message => message
  | hugeCodePoint => "the code point is too large"
  | hugeNumber => "the integer is too large for a float"
  | hugeQuotient => "the quotient is too large for a float"
  | file problem quotedPath =>
    "[Errno " ++ toString problem.code ++ "] " ++ problem.reason ++ ": " ++ quotedPath

end Fault

end LiveScheme
