import LiveScheme.Value.Basic

/-!
# Equality of values

`isEqv` holds of the same object and of equal numbers of one kind, characters, symbols, truth
values and short strings; `isEqual` compares lists, pairs, vectors and strings part by part.
-/

namespace LiveScheme.Value

def isEqv : Value → Value → Bool
  | .bool a, .bool b => a == b
  | .int m, .int n => m == n
  | .real s x, .real t y => s == t || x == y
  | .str s a, .str t b => a == b && (s == t || a.length ≤ 1)
  | .char a, .char b => a == b
  | .sym a, .sym b => a == b
  | .list s xs, .list t ys => s == t || (xs.isEmpty && ys.isEmpty)
  | .vector s _, .vector t _ => s == t
  | .improper s _ _, .improper t _ _ => s == t
  | .object a _, .object b _ => a == b
  | _, _ => false

mutual

def isEqual : Value → Value → Bool
  | .list s xs, .list t ys => isEqv (.list s xs) (.list t ys) || areEqual xs ys
  | .vector s xs, .vector t ys => isEqv (.vector s xs) (.vector t ys) || areEqual xs ys
  | .improper s xs a, .improper t ys b =>
    isEqv (.improper s xs a) (.improper t ys b) || (areEqual xs ys && isEqual a b)
  | .str _ a, .str _ b => a == b
  | a, b => isEqv a b

def areEqual : List Value → List Value → Bool
  | [], [] => true
  | x :: xs, y :: ys => isEqual x y && areEqual xs ys
  | _, _ => false

end

end LiveScheme.Value
