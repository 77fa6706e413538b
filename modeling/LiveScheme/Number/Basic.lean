import LiveScheme.Fault
import LiveScheme.Decimal.Binary

/-!
# Numbers

Integers of any size and floats. An operation on two integers is exact where its result is one;
with a float, the integer is first rounded to the nearest float, and one beyond all floats is a
fault. Comparisons are exact for every pair.
-/

namespace LiveScheme

open Decimal

inductive Number
  | int (n : Int)
  | real (x : Float)

namespace Number

def signed (negative : Bool) (x : Float) : Float := if negative then -x else x

def intToFloat (n : Int) : Except Fault Float :=
  match nearestFloat? n.natAbs 1 with
  | some x => .ok (signed (n < 0) x)
  | none => .error .hugeNumber

def toFloat : Number → Except Fault Float
  | int n => intToFloat n
  | real x => .ok x

/-- The operation on integers, or on floats when one of the numbers is a float. -/
def lift (onInts : Int → Int → Int) (onFloats : Float → Float → Float) (a b : Number) :
    Except Fault Number :=
  match a, b with
  | int m, int n => .ok (int (onInts m n))
  | a, b => do return real (onFloats (← a.toFloat) (← b.toFloat))

def add : Number → Number → Except Fault Number := lift (· + ·) (· + ·)

def sub : Number → Number → Except Fault Number := lift (· - ·) (· - ·)

def mul : Number → Number → Except Fault Number := lift (· * ·) (· * ·)

def neg : Number → Number
  | int n => int (-n)
  | real x => real (-x)

def abs : Number → Number
  | int n => int n.natAbs
  | real x => real x.abs

/-- The exact order of an integer and a float that is a number. -/
def compareInt (n : Int) (x : Float) : Ordering :=
  if x.isInf then (if 0 < x then .lt else .gt)
  else
    let (num, den) := (Dyadic.ofFloat x).ratio
    compare (n * den) (if isNegative x then -(num : Int) else num)

/-- The exact order of two numbers; none when one of them is not a number. -/
def compare? : Number → Number → Option Ordering
  | int m, int n => some (compare m n)
  | int m, real y => if y.isNaN then none else some (compareInt m y)
  | real x, int n => if x.isNaN then none else some (compareInt n x).swap
  | real x, real y =>
    if x < y then some .lt else if x == y then some .eq else if y < x then some .gt else none

def isZero (a : Number) : Bool := a.compare? (int 0) == some .eq

def isNonNegative (a : Number) : Bool :=
  a.compare? (int 0) == some .eq || a.compare? (int 0) == some .gt

/-- The remainder of the magnitudes, with the sign of the dividend; exact. -/
def floatRemainder (x y : Float) : Float :=
  if x.isNaN || y.isNaN || x.isInf || y == 0 then notANumber
  else if y.isInf then x
  else
    let a := Dyadic.ofFloat x
    let b := Dyadic.ofFloat y
    let e := min a.exponent b.exponent
    let r :=
      (a.mantissa * twoTo (a.exponent - e).toNat) % (b.mantissa * twoTo (b.exponent - e).toNat)
    signed (isNegative x)
      ((nearestFloat? (r * twoTo e.toNat) (twoTo (-e).toNat)).getD infinity)

/-- The remainder that has the sign of the divisor. -/
def floatModulo (x y : Float) : Float :=
  let r := floatRemainder x y
  if r == 0 then signed (isNegative y) 0
  else if (y < 0) != (r < 0) then r + y else r

/-- The quotient rounded toward minus infinity. -/
def floatFloorQuotient (x y : Float) : Float :=
  let r := floatRemainder x y
  let whole := (x - r) / y
  let whole := if !(r == 0) && (y < 0) != (r < 0) then whole - 1 else whole
  if whole == 0 then signed (isNegative (x / y)) 0
  else
    let down := whole.floor
    if 0.5 < whole - down then down + 1 else down

def floorQuotient : Number → Number → Except Fault Number :=
  lift Int.fdiv floatFloorQuotient

def modulo : Number → Number → Except Fault Number := lift Int.fmod floatModulo

/-- The floor quotient of the magnitudes, negated when exactly one number is below zero. -/
def quotient (a b : Number) : Except Fault Number := do
  let q ← floorQuotient a.abs b.abs
  mul q (int (if a.isNonNegative == b.isNonNegative then 1 else -1))

def remainder (a b : Number) : Except Fault Number := do
  sub a (← mul b (← quotient a b))

/-- The float nearest to the quotient of two integers. -/
def intQuotient (m n : Int) : Except Fault Float :=
  match nearestFloat? m.natAbs n.natAbs with
  | some x => .ok (signed ((m < 0) != (n < 0)) x)
  | none => .error .hugeQuotient

/-- Division by a number other than zero: exact when it comes out even, else a float. -/
def div : Number → Number → Except Fault Number
  | int m, int n =>
    if m % n = 0 then .ok (int (m / n)) else do return real (← intQuotient m n)
  | a, b => do return real ((← a.toFloat) / (← b.toFloat))

/-- Whether the number is a whole one; an integer beyond all floats is a fault. -/
def isWhole : Number → Except Fault Bool
  | int n => do
    let _ ← intToFloat n
    return true
  | real x => .ok (!x.isNaN && !x.isInf && x.floor == x)

end Number

end LiveScheme
