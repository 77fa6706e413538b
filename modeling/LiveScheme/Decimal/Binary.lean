/-!
# Binary floating-point numbers as fractions

A finite float is `m · 2 ^ e` with natural `m` and integer `e`, up to sign. The module takes floats
apart into that form and rounds fractions of naturals to the nearest float, ties to the even
neighbour, which is how integers, quotients and decimal literals become floats.
-/

namespace LiveScheme.Decimal

/-- The power of two with the given exponent. -/
def twoTo (e : Nat) : Nat := Nat.pow 2 e

/-- The power of ten with the given exponent. -/
def tenTo (e : Nat) : Nat := Nat.pow 10 e

/-- The value `m · 2 ^ e`. -/
structure Dyadic where
  mantissa : Nat
  exponent : Int
deriving DecidableEq

/-- The magnitude of a finite float. -/
def Dyadic.ofFloat (x : Float) : Dyadic :=
  let bits : Nat := x.toBits.toNat
  let biased : Nat := bits / twoTo 52 % twoTo 11
  let fraction : Nat := bits % twoTo 52
  if biased = 0 then ⟨fraction, -1074⟩ else ⟨fraction + twoTo 52, (biased : Int) - 1075⟩

/-- The value as a fraction of naturals. -/
def Dyadic.ratio (d : Dyadic) : Nat × Nat :=
  if 0 ≤ d.exponent then (d.mantissa * twoTo d.exponent.toNat, 1)
  else (d.mantissa, twoTo (-d.exponent).toNat)

def isNegative (x : Float) : Bool := twoTo 63 ≤ x.toBits.toNat

/-- The natural nearest to `num / den`, of two nearest ones the even one. -/
def roundHalfEven (num den : Nat) : Nat :=
  let q := num / den
  let r := num % den
  if 2 * r < den then q else if den < 2 * r then q + 1 else q + q % 2

/-- The exponent of the last bit that the float nearest to `num / den` can have. -/
def lastBit (num den : Nat) : Int :=
  let guess : Int := (num.log2 : Int) - (den.log2 : Int) - 52
  let low := if 0 ≤ guess then num < den * twoTo (guess.toNat + 52)
    else num * twoTo (-guess).toNat < den * twoTo 52
  max (-1074) (if low then guess - 1 else guess)

/-- The float nearest to `num / den`; none when it lies beyond the largest float. -/
def nearestFloat? (num den : Nat) : Option Float :=
  if num = 0 then some 0 else
    let e := lastBit num den
    let m : Nat := if 0 ≤ e then roundHalfEven num (den * twoTo e.toNat)
      else roundHalfEven (num * twoTo (-e).toNat) den
    if twoTo 1024 ≤ (if 0 ≤ e then m * twoTo e.toNat else 0) then none
    else if m < twoTo 52 then some (Float.ofBits m.toUInt64)
    else
      let carry : Nat := m / twoTo 53
      let biased : Nat := (e + 1075 + carry).toNat
      some (Float.ofBits (biased * twoTo 52 + m / twoTo carry % twoTo 52).toUInt64)

def infinity : Float := Float.ofBits 0x7FF0000000000000

def notANumber : Float := Float.ofBits 0x7FF8000000000000

end LiveScheme.Decimal
