import LiveScheme.Fault
import LiveScheme.Number.Literal
import LiveScheme.Text.Quoted
import LiveScheme.Text.Split

/-!
# Version numbers

A version is a sequence of numbers between dots. A part ends at its first character that is no
digit, and a part without digits ends the version. Versions are ordered part by part.
-/

namespace LiveScheme.Version

open Text

/-- The number that a run of digits denotes. -/
def partValue (digits : List Char) : Except Fault Nat :=
  match Literal.integer? 10 digits with
  | some n => .ok n.toNat
  | none => .error (.badNumeral (String.ofList (quoted digits)) 10)

def partsOf : List (List Char) → Except Fault (List Nat)
  | [] => .ok []
  | piece :: rest =>
    let digits := piece.takeWhile isDigit
    if digits.isEmpty then .ok []
    else do
      let n ← partValue digits
      return n :: (← partsOf rest)

def parse (text : String) : Except Fault (List Nat) := partsOf (splitAt '.' (trim text.toList))

def order : List Nat → List Nat → Ordering
  | [], [] => .eq
  | [], _ :: _ => .lt
  | _ :: _, [] => .gt
  | a :: as, b :: bs => (compare a b).then (order as bs)

end LiveScheme.Version
