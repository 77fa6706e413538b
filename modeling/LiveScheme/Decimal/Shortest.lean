import LiveScheme.Decimal.Binary

/-!
# Shortest decimal text of a float

The fewest digits that read back as the float, and of those the nearest to it. For one, two, … up to
seventeen digits the two neighbours of the value on that decimal grid are tried; a neighbour reads
back when it lies in the interval of reals that round to the float.
-/

namespace LiveScheme.Decimal

/-- The value `digits · 10 ^ exponent`. -/
structure Digits where
  digits : Nat
  exponent : Int
deriving DecidableEq

/-- The reals that round to a dyadic, in units of `2 ^ unit`: from `low` to `high`, ends included
when `closed`. The value itself is `middle`. -/
structure RoundingInterval where
  low : Nat
  middle : Nat
  high : Nat
  unit : Int
  closed : Bool

def Dyadic.interval (d : Dyadic) : RoundingInterval :=
  let m := d.mantissa
  let even := m % 2 = 0
  if m = twoTo 52 && -1074 < d.exponent then
    ⟨4 * m - 1, 4 * m, 4 * m + 2, d.exponent - 2, even⟩
  else ⟨4 * m - 2, 4 * m, 4 * m + 2, d.exponent - 2, even⟩

/-- `a · 2 ^ p · 10 ^ q` as a fraction of naturals. -/
def scaled (a : Nat) (p q : Int) : Nat × Nat :=
  (a * twoTo p.toNat * tenTo q.toNat, twoTo (-p).toNat * tenTo (-q).toNat)

/-- Whether `n · 10 ^ k` lies in the interval. -/
def RoundingInterval.holds (i : RoundingInterval) (n : Nat) (k : Int) : Bool :=
  let (a, d) := scaled n (-i.unit) k
  if i.closed then i.low * d ≤ a && a ≤ i.high * d else i.low * d < a && a < i.high * d

/-- The one of the two neighbours of the value on the grid of step `10 ^ k` that reads back. -/
def RoundingInterval.onGrid? (i : RoundingInterval) (k : Int) : Option Nat :=
  let (a, d) := scaled i.middle i.unit (-k)
  let lower := a / d
  let nearest := roundHalfEven a d
  if i.holds nearest k then some nearest
  else if i.holds lower k then some lower
  else if i.holds (lower + 1) k then some (lower + 1)
  else none

/-- The exponent of the first decimal digit of `num / den`, never too large and at most one too
small. -/
def firstDigitExponent (num den : Nat) : Int :=
  let guess := ((num.log2 : Int) - (den.log2 : Int) - 1) * 30103 / 100000
  let (a, d) := scaled 1 0 (guess + 1)
  if a * den ≤ num * d then guess + 1 else guess

def tryGrids (i : RoundingInterval) (first : Int) : Nat → Nat → Digits
  | 0, count => ⟨(i.onGrid? (first - count)).getD 0, first - count⟩
  | left + 1, count =>
    match i.onGrid? (first - count) with
    | some n => ⟨n, first - count⟩
    | none => tryGrids i first left (count + 1)

/-- Removes the trailing zeros of a positive digit string. -/
def trimZeros : Nat → Digits → Digits
  | 0, d => d
  | fuel + 1, d =>
    if d.digits ≠ 0 && d.digits % 10 = 0 then trimZeros fuel ⟨d.digits / 10, d.exponent + 1⟩ else d

def shortest (d : Dyadic) : Digits :=
  let (num, den) := d.ratio
  trimZeros 20 (tryGrids d.interval (firstDigitExponent num den) 18 0)

/-- When a decimal number leaves positional notation, and how its exponent is written. -/
structure NumeralStyle where
  leastPositional : Int
  leastExponential : Int
  exponentDigits : Nat

def padStart (width : Nat) (cs : List Char) : List Char :=
  List.replicate (width - cs.length) '0' ++ cs

def NumeralStyle.write (f : NumeralStyle) (d : Digits) : List Char :=
  let ds := Nat.toDigits 10 d.digits
  let point : Int := ds.length + d.exponent
  if point - 1 < f.leastPositional || f.leastExponential ≤ point - 1 then
    let e := point - 1
    let fraction := match ds.drop 1 with
      | [] => []
      | more => '.' :: more
    ds.take 1 ++ fraction ++ 'e' :: (if e < 0 then '-' else '+') ::
      padStart f.exponentDigits (Nat.toDigits 10 e.natAbs)
  else if point ≤ 0 then '0' :: '.' :: List.replicate (-point).toNat '0' ++ ds
  else if ds.length ≤ point.toNat then
    ds ++ List.replicate (point.toNat - ds.length) '0' ++ ['.', '0']
  else ds.take point.toNat ++ '.' :: ds.drop point.toNat

/-- Numbers from a ten-thousandth to below ten to the sixteenth are written positionally, and an
exponent has a sign and at least two digits. -/
def plainStyle : NumeralStyle := ⟨-4, 16, 2⟩

/-- The shortest text of a finite float. -/
def writeFinite (x : Float) : List Char :=
  let d := Dyadic.ofFloat x
  let body := if d.mantissa = 0 then ['0', '.', '0'] else plainStyle.write (shortest d)
  if isNegative x then '-' :: body else body

end LiveScheme.Decimal
