import LiveScheme.Primitive.Arithmetic
import LiveScheme.Primitive.Pairs
import LiveScheme.Primitive.System
import LiveScheme.Primitive.Texts

/-!
# Calling built-in procedures

Every built-in procedure on a list of arguments, in the scope of the call.
-/

namespace LiveScheme

open Primitive in
def Builtin.call (g : Engine) (s : Scope) (args : List Value) : Builtin → Run Value
  | add => sum args
  | sub => difference args
  | mul => product args
  | div => ratio args
  | quotient => integerDivision "quotient" Number.quotient args
  | remainder => integerDivision "remainder" Number.remainder args
  | modulo => integerDivision "modulo" Number.modulo args
  | numEq => comparison "=" (· == .eq) args
  | numLt => comparison "<" (· == .lt) args
  | numGt => comparison ">" (· == .gt) args
  | numLe => comparison "<=" (· != .gt) args
  | numGe => comparison ">=" (· != .lt) args
  | abs => magnitude args
  | min => extreme "min" (· == .lt) args
  | max => extreme "max" (· == .gt) args
  | isEq => compareTwo "eq?" Value.isEqv
  | isEqv => compareTwo "eqv?" Value.isEqv
  | isEqual => compareTwo "equal?" Value.isEqual
  | not => predicate "not" (pure ·.isFalse) args
  | cons => Primitive.cons args
  | car => Primitive.car args
  | cdr => Primitive.cdr args
  | cadr => Primitive.cadr args
  | cddr => Primitive.cddr args
  | caar => Primitive.caar args
  | list => Run.newList args
  | length => Primitive.length args
  | append => appendTo [] args
  | reverse => Primitive.reverse args
  | listRef => Primitive.listRef args
  | listTail => Primitive.listTail args
  | memq => Primitive.member "memq" Value.isEqv args
  | member => Primitive.member "member" Value.isEqual args
  | assq => Primitive.assoc "assq" Value.isEqv args
  | assoc => Primitive.assoc "assoc" Value.isEqual args
  | map => Primitive.map g args
  | forEach => Primitive.forEach g args
  | filter => Primitive.filter g args
  | isNull => test "null?" fun
    | .list _ [] => true
    | _ => false
  | isPair => test "pair?" Primitive.isPair
  | isList => test "list?" (·.isProperList)
  | isNumber => test "number?" (·.number?.isSome)
  | isInteger => predicate "integer?" isWhole args
  | isZero => test "zero?" Primitive.isZero
  | isEven => test "even?" (hasParity 0)
  | isOdd => test "odd?" (hasParity 1)
  | isBool => test "boolean?" fun
    | .bool _ => true
    | _ => false
  | isSymbol => test "symbol?" fun
    | .sym _ => true
    | _ => false
  | isString => test "string?" fun
    | .str _ _ => true
    | _ => false
  | isChar => test "char?" fun
    | .char _ => true
    | _ => false
  | isVector => test "vector?" fun
    | .vector _ _ => true
    | _ => false
  | isProcedure => test "procedure?" (·.isProcedure)
  | stringAppend => Primitive.stringAppend args
  | stringLength => Primitive.stringLength args
  | substring => Primitive.substring args
  | stringEq => Primitive.stringEq args
  | stringStarts => Primitive.stringStarts args
  | stringUpcase => changeCase "string-upcase" Text.upperCase args
  | stringDowncase => changeCase "string-downcase" Text.lowerCase args
  | symbolToString => Primitive.symbolToString args
  | stringToSymbol => Primitive.stringToSymbol args
  | numberToString => Primitive.numberToString args
  | stringToNumber => Primitive.stringToNumber args
  | vector => Run.newVector args
  | vectorRef => Primitive.vectorRef args
  | vectorLength => Primitive.vectorLength args
  | listToVector => Primitive.listToVector args
  | vectorToList => Primitive.vectorToList args
  | display => output "display" Run.displayed args
  | write => output "write" Run.text args
  | newline => Primitive.newline args
  | outputPort => constant "current-output-port" (.port .output) args
  | errorPort => constant "current-error-port" (.port .error) args
  | apply => Primitive.apply g args
  | values => Primitive.values args
  | callWithValues => Primitive.callWithValues g args
  | error => Primitive.error args
  | eval => Primitive.eval g s args
  | load => Primitive.load g args
  | version => Primitive.version args
  | currentModule => constant "current-module" (.space s.home) args
  | findModule => Primitive.findModule args
  | moduleName => Primitive.moduleName args
  | isModule => test "module?" Primitive.isModule
  | macroExpand => expand g "macro-expand" true s args
  | macroExpandOnce => expand g "macro-expand-1" false s args
  | exit => Primitive.exit args
where
  test (who : String) (holds : Value → Bool) : Run Value :=
    Primitive.predicate who (fun v => pure (holds v)) args
  compareTwo (who : String) (same : Value → Value → Bool) : Run Value := do
    Primitive.checkCount who 2 (some 2) args
    match args with
    | [a, b] => return .bool (same a b)
    | _ => return .void

end LiveScheme
