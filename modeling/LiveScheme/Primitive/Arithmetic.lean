import LiveScheme.Primitive.Arguments

/-!
# Arithmetic procedures

Sums begin with the integer zero and products with one. A division by zero of either kind is an
error of the program.
-/

namespace LiveScheme.Primitive

def foldNumbers (op : Number → Number → Except Fault Number) (start : Number) :
    List Number → Run Number
  | [] => return start
  | n :: rest => do foldNumbers op (← Run.ofFault (op start n)) rest

def sum (args : List Value) : Run Value := do
  Run.ofNumber (← foldNumbers Number.add (.int 0) (← numbers "+" args))

def product (args : List Value) : Run Value := do
  Run.ofNumber (← foldNumbers Number.mul (.int 1) (← numbers "*" args))

def difference (args : List Value) : Run Value := do
  checkCount "-" 1 none args
  match ← numbers "-" args with
  | [n] => Run.ofNumber n.neg
  | n :: rest => do Run.ofNumber (← foldNumbers Number.sub n rest)
  | [] => return .int 0

def divideBy (n : Number) : List Number → Run Number
  | [] => return n
  | d :: rest =>
    if d.isZero then Run.fail (.divisionByZero "/")
    else do divideBy (← Run.ofFault (n.div d)) rest

def ratio (args : List Value) : Run Value := do
  checkCount "/" 1 none args
  match ← numbers "/" args with
  | [n] => do Run.ofNumber (← divideBy (.int 1) [n])
  | n :: rest => do Run.ofNumber (← divideBy n rest)
  | [] => return .int 1

def integerDivision (who : String) (op : Number → Number → Except Fault Number)
    (args : List Value) : Run Value := do
  checkCount who 2 (some 2) args
  match ← numbers who args with
  | [n, d] =>
    if d.isZero then Run.fail (.divisionByZero who)
    else do Run.ofNumber (← Run.ofFault (op n d))
  | _ => return .int 0

/-- Whether every number and its successor are ordered as `holds` allows. -/
def chain (holds : Ordering → Bool) : List Number → Bool
  | a :: b :: rest => (a.compare? b).any holds && chain holds (b :: rest)
  | _ => true

def comparison (who : String) (holds : Ordering → Bool) (args : List Value) : Run Value := do
  checkCount who 1 none args
  return .bool (chain holds (← numbers who args))

def magnitude (args : List Value) : Run Value := do
  checkCount "abs" 1 (some 1) args
  match ← numbers "abs" args with
  | n :: _ => Run.ofNumber n.abs
  | [] => return .int 0

/-- The first argument that no later one beats; `beats` compares a later number with the best. -/
def best (beats : Ordering → Bool) (v : Value) (n : Number) : List (Value × Number) → Value
  | [] => v
  | (w, k) :: rest =>
    if (k.compare? n).any beats then best beats w k rest else best beats v n rest

def extreme (who : String) (beats : Ordering → Bool) (args : List Value) : Run Value := do
  checkCount who 1 none args
  match args.zip (← numbers who args) with
  | (v, n) :: rest => return best beats v n rest
  | [] => return .int 0

def predicate (who : String) (test : Value → Run Bool) (args : List Value) : Run Value := do
  checkCount who 1 (some 1) args
  match args with
  | v :: _ => do return .bool (← test v)
  | [] => return .bool false

def isWhole (v : Value) : Run Bool :=
  match v.number? with
  | some n => Run.ofFault n.isWhole
  | none => return false

def isZero (v : Value) : Bool := v.number?.any Number.isZero

/-- Whether an integer, or a truth value counted as one, leaves the given remainder by two. -/
def hasParity (r : Int) (v : Value) : Bool := v.index?.any fun n => n % 2 == r

end LiveScheme.Primitive
