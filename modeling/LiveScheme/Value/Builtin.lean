/-!
# Built-in procedures

The names of the built-in procedures, in the order in which a fresh runtime binds them, with the
documentation that editors show.
-/

namespace LiveScheme

inductive Builtin
  | add | sub | mul | div | quotient | remainder | modulo | numEq | numLt | numGt | numLe | numGe
  | abs | min | max | isEq | isEqv | isEqual | not | cons | car | cdr | cadr | cddr | caar | list
  | length | append | reverse | listRef | listTail | memq | member | assq | assoc | map | forEach
  | filter | isNull | isPair | isList | isNumber | isInteger | isZero | isEven | isOdd | isBool
  | isSymbol | isString | isChar | isVector | isProcedure | stringAppend | stringLength
  | substring | stringEq | stringStarts | stringUpcase | stringDowncase | symbolToString
  | stringToSymbol | numberToString | stringToNumber | vector | vectorRef | vectorLength
  | listToVector | vectorToList | display | write | newline | outputPort | errorPort | apply
  | values | callWithValues | error | eval | load | version | currentModule | findModule
  | moduleName | isModule | macroExpand | macroExpandOnce | exit
deriving DecidableEq, Repr

namespace Builtin

def all : List Builtin := [
  .add, .sub, .mul, .div, .quotient, .remainder, .modulo, .numEq, .numLt, .numGt, .numLe, .numGe,
  .abs, .min, .max, .isEq, .isEqv, .isEqual, .not, .cons, .car, .cdr, .cadr, .cddr, .caar, .list,
  .length, .append, .reverse, .listRef, .listTail, .memq, .member, .assq, .assoc, .map, .forEach,
  .filter, .isNull, .isPair, .isList, .isNumber, .isInteger, .isZero, .isEven, .isOdd, .isBool,
  .isSymbol, .isString, .isChar, .isVector, .isProcedure, .stringAppend, .stringLength,
  .substring, .stringEq, .stringStarts, .stringUpcase, .stringDowncase, .symbolToString,
  .stringToSymbol, .numberToString, .stringToNumber, .vector, .vectorRef, .vectorLength,
  .listToVector, .vectorToList, .display, .write, .newline, .outputPort, .errorPort, .apply,
  .values, .callWithValues, .error, .eval, .load, .version, .currentModule, .findModule,
  .moduleName, .isModule, .macroExpand, .macroExpandOnce, .exit]

def name : Builtin → String
  | add => "+"
  | sub => "-"
  | mul => "*"
  | div => "/"
  | quotient => "quotient"
  | remainder => "remainder"
  | modulo => "modulo"
  | numEq => "="
  | numLt => "<"
  | numGt => ">"
  | numLe => "<="
  | numGe => ">="
  | abs => "abs"
  | min => "min"
  | max => "max"
  | isEq => "eq?"
  | isEqv => "eqv?"
  | isEqual => "equal?"
  | not => "not"
  | cons => "cons"
  | car => "car"
  | cdr => "cdr"
  | cadr => "cadr"
  | cddr => "cddr"
  | caar => "caar"
  | list => "list"
  | length => "length"
  | append => "append"
  | reverse => "reverse"
  | listRef => "list-ref"
  | listTail => "list-tail"
  | memq => "memq"
  | member => "member"
  | assq => "assq"
  | assoc => "assoc"
  | map => "map"
  | forEach => "for-each"
  | filter => "filter"
  | isNull => "null?"
  | isPair => "pair?"
  | isList => "list?"
  | isNumber => "number?"
  | isInteger => "integer?"
  | isZero => "zero?"
  | isEven => "even?"
  | isOdd => "odd?"
  | isBool => "boolean?"
  | isSymbol => "symbol?"
  | isString => "string?"
  | isChar => "char?"
  | isVector => "vector?"
  | isProcedure => "procedure?"
  | stringAppend => "string-append"
  | stringLength => "string-length"
  | substring => "substring"
  | stringEq => "string=?"
  | stringStarts => "string-prefix?"
  | stringUpcase => "string-upcase"
  | stringDowncase => "string-downcase"
  | symbolToString => "symbol->string"
  | stringToSymbol => "string->symbol"
  | numberToString => "number->string"
  | stringToNumber => "string->number"
  | vector => "vector"
  | vectorRef => "vector-ref"
  | vectorLength => "vector-length"
  | listToVector => "list->vector"
  | vectorToList => "vector->list"
  | display => "display"
  | write => "write"
  | newline => "newline"
  | outputPort => "current-output-port"
  | errorPort => "current-error-port"
  | apply => "apply"
  | values => "values"
  | callWithValues => "call-with-values"
  | error => "error"
  | eval => "eval"
  | load => "load"
  | version => "version"
  | currentModule => "current-module"
  | findModule => "find-module"
  | moduleName => "module-name"
  | isModule => "module?"
  | macroExpand => "macro-expand"
  | macroExpandOnce => "macro-expand-1"
  | exit => "exit"

def doc : Builtin → String
  | add => "(+ n ...) - sum of all arguments."
  | sub => "(- n m ...) - subtract the rest from n; negate a single argument."
  | mul => "(* n ...) - product of all arguments."
  | div => "(/ n m ...) - divide left to right; reciprocal of a single argument."
  | quotient => "(quotient n d) - integer quotient of n by d."
  | remainder => "(remainder n d) - integer remainder of n by d."
  | modulo => "(modulo n d) - integer modulo of n by d."
  | numEq => "(= n m ...) - true when every adjacent pair satisfies =."
  | numLt => "(< n m ...) - true when every adjacent pair satisfies <."
  | numGt => "(> n m ...) - true when every adjacent pair satisfies >."
  | numLe => "(<= n m ...) - true when every adjacent pair satisfies <=."
  | numGe => "(>= n m ...) - true when every adjacent pair satisfies >=."
  | abs => "(abs n) - absolute value."
  | min => "(min n ...) - smallest argument."
  | max => "(max n ...) - largest argument."
  | isEq => "(eq? a b) - identity comparison."
  | isEqv => "(eqv? a b) - identity comparison, numbers and characters by value."
  | isEqual => "(equal? a b) - structural comparison."
  | not => "(not obj) - #t when obj is #f."
  | cons => "(cons a d) - a new pair; a list when d is a list."
  | car => "(car pair) - first element of a pair."
  | cdr => "(cdr pair) - everything after the first element of a pair."
  | cadr => "(cadr pair) - second element."
  | cddr => "(cddr pair) - everything after the second element."
  | caar => "(caar pair) - first element of the first element."
  | list => "(list obj ...) - a new list of the arguments."
  | length => "(length list) - number of elements."
  | append => "(append list ...) - concatenation; the last argument may be any object."
  | reverse => "(reverse list) - a new list in reverse order."
  | listRef => "(list-ref list k) - element at index k."
  | listTail => "(list-tail list k) - the list without its first k elements."
  | memq => "(memq obj list) - the first sublist whose car is obj, or #f."
  | member => "(member obj list) - the first sublist whose car is obj, or #f."
  | assq => "(assq obj alist) - the first entry whose key is obj, or #f."
  | assoc => "(assoc obj alist) - the first entry whose key is obj, or #f."
  | map => "(map proc list ...) - results of applying proc element-wise."
  | forEach => "(for-each proc list ...) - apply proc element-wise for effect."
  | filter => "(filter pred list) - the elements satisfying pred."
  | isNull => "(null? obj) - type predicate."
  | isPair => "(pair? obj) - type predicate."
  | isList => "(list? obj) - type predicate."
  | isNumber => "(number? obj) - type predicate."
  | isInteger => "(integer? obj) - type predicate."
  | isZero => "(zero? obj) - type predicate."
  | isEven => "(even? obj) - type predicate."
  | isOdd => "(odd? obj) - type predicate."
  | isBool => "(boolean? obj) - type predicate."
  | isSymbol => "(symbol? obj) - type predicate."
  | isString => "(string? obj) - type predicate."
  | isChar => "(char? obj) - type predicate."
  | isVector => "(vector? obj) - type predicate."
  | isProcedure => "(procedure? obj) - true for closures and primitives."
  | stringAppend => "(string-append str ...) - concatenation of the strings."
  | stringLength => "(string-length str) - number of characters."
  | substring => "(substring str start [end]) - characters from start up to end."
  | stringEq => "(string=? str ...) - true when all strings are equal."
  | stringStarts => "(string-prefix? prefix str) - true when str starts with prefix."
  | stringUpcase => "(string-upcase str)"
  | stringDowncase => "(string-downcase str)"
  | symbolToString => "(symbol->string sym) - the name of sym."
  | stringToSymbol => "(string->symbol str) - the symbol named str."
  | numberToString => "(number->string n) - printed representation of n."
  | stringToNumber => "(string->number str) - the number written in str, or #f."
  | vector => "(vector obj ...) - a new vector of the arguments."
  | vectorRef => "(vector-ref vec k) - element k of vec."
  | vectorLength => "(vector-length vec)"
  | listToVector => "(list->vector list)"
  | vectorToList => "(vector->list vec)"
  | display => "(display obj [port]) - write obj in human-readable form."
  | write => "(write obj [port]) - write obj in read-back-compatible form."
  | newline => "(newline [port]) - write an end of line."
  | outputPort => "(current-output-port)"
  | errorPort => "(current-error-port)"
  | apply => "(apply proc arg ... list) - call proc with the spread arguments."
  | values => "(values obj ...) - return zero or more values."
  | callWithValues => "(call-with-values producer consumer) - pass producer's values to consumer."
  | error => "(error [who] message irritant ...) - signal an error."
  | eval => "(eval expr [module]) - evaluate expr, in module when given."
  | load => "(load filename) - read and evaluate every form of a file."
  | version => "(version) - the runtime version string."
  | currentModule => "(current-module) - the module of the calling code."
  | findModule => "(find-module name) - the module called name, or #f."
  | moduleName => "(module-name module)"
  | isModule => "(module? obj)"
  | macroExpand => "(macro-expand form) - expand the macros of form, recursively."
  | macroExpandOnce => "(macro-expand-1 form) - expand the head macro of form once."
  | exit => "(exit [code]) - leave the runtime."

end Builtin

end LiveScheme
