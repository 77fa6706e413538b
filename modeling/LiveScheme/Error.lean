import LiveScheme.Datum.ReadError
import LiveScheme.Value.Basic

/-!
# Scheme errors

The errors that a program can meet, by cause, with their texts. Values appear in a cause by the text
that they had when the error arose.
-/

namespace LiveScheme

inductive SchemeError
  | read (e : ReadError)
  | unboundIn (name home : String)
  | unbound (name : String)
  | badForm (text : String)
  | badRest (text : String)
  | badParameters (text : String)
  | badBindings
  | badBinding
  | badCondClause
  | badArrowClause
  | badCaseClause
  | badDefine
  | badTransformer
  | badName (who text : String)
  | badDeclaration
  | unknownDeclaration (label : String)
  | formArity (f : SpecialForm)
  | defineSeveralValues
  | defineNoBody
  | arity (who : String) (low : Nat) (high : Option Nat) (got : Nat)
  | callArity (who : String) (required : Nat) (rest : Bool) (got : Nat)
  | cannotDefine (text : String)
  | badProcedure (text : String)
  | badArgument (who what text : String)
  | badPort (text : String)
  | badSplice
  | badModuleName (text : String)
  | noModule (name : String)
  | cannotImport (name : String)
  | cannotLoad (path : String) (problem : FileProblem)
  | divisionByZero (who : String)
  | user (message : String)
deriving DecidableEq, Repr

namespace SchemeError

inductive Category
  | unbound
  | badSyntax
  | incomplete
  | arity
  | wrongType
  | badModule
  | load
  | user
deriving DecidableEq, Repr

def category : SchemeError → Category
  | read e => if e.isIncomplete then .incomplete else .badSyntax
  | unboundIn _ _ | unbound _ => .unbound
  | badForm _ | badRest _ | badParameters _ | badBindings | badBinding | badCondClause
  | badArrowClause | badCaseClause | badDefine | badTransformer | badName _ _ | badDeclaration
  | unknownDeclaration _ => .badSyntax
  | formArity _ | defineSeveralValues | defineNoBody | arity _ _ _ _ | callArity _ _ _ _ => .arity
  | cannotDefine _ | badProcedure _ | badArgument _ _ _ | badPort _ | badSplice => .wrongType
  | badModuleName _ | noModule _ | cannotImport _ => .badModule
  | cannotLoad _ _ => .load
  | divisionByZero _ | user _ => .user

/-- What a special form requires of the number of its parts. -/
def requirement : SpecialForm → String
  | .quote => "quote requires exactly 1 argument"
  | .quasiquote => "quasiquote requires exactly 1 argument"
  | .lambda => "lambda requires a parameter list and a body"
  | .define => "define requires a name"
  | .assign => "set! requires a symbol and a value"
  | .defineMacro => "define-macro requires a name and a body"
  | .conditional => "if requires 2 or 3 arguments"
  | .case => "case requires a key"
  | .whenTrue => "when requires a test"
  | .unlessTrue => "unless requires a test"
  | .letPlain => "let requires bindings and a body"
  | .letStar => "let* requires bindings and a body"
  | .letrec | .letrecStar => "letrec requires bindings and a body"
  | .defineModule => "define-module requires a name"
  | .selectModule => "select-module requires exactly 1 argument"
  | .defineLibrary => "define-library requires a name"
  | f => f.name

def countText (low : Nat) : Option Nat → String
  | none => "at least " ++ toString low
  | some high =>
    if high = low then toString low else toString low ++ " to " ++ toString high

def message : SchemeError → String
  | read e => e.message
  | unboundIn name home => "symbol `" ++ name ++ "' unbound in module `" ++ home ++ "'"
  | unbound name => "symbol `" ++ name ++ "' unbound"
  | badForm text => "bad syntax: " ++ text
  | badRest text => "bad rest parameter: " ++ text
  | badParameters text => "bad lambda list: " ++ text
  | badBindings => "bad binding list"
  | badBinding => "bad binding in let form"
  | badCondClause => "bad cond clause"
  | badArrowClause => "bad => clause in cond"
  | badCaseClause => "bad case clause"
  | badDefine => "bad define form"
  | badTransformer => "define-macro expects a lambda expression"
  | badName who text => who ++ " expects symbols, got " ++ text
  | badDeclaration => "bad library declaration"
  | unknownDeclaration label => "unknown library declaration " ++ label
  | formArity f => requirement f
  | defineSeveralValues => "define requires at most one value"
  | defineNoBody => "define requires a body"
  | arity who low high got =>
    who ++ ": expects " ++ countText low high ++ " argument(s), got " ++ toString got
  | callArity who required rest got =>
    "procedure `" ++ who ++ "' expects " ++ countText required (if rest then none else required) ++
      " argument(s), got " ++ toString got
  | cannotDefine text => "cannot define " ++ text ++ ": not a symbol"
  | badProcedure text => "bad procedure: " ++ text
  | badArgument who what text => who ++ ": bad " ++ what ++ " " ++ text
  | badPort text => "bad output port " ++ text
  | badSplice => "unquote-splicing expects a list"
  | badModuleName text => "bad module name " ++ text
  | noModule name => "module `" ++ name ++ "' does not exist"
  | cannotImport name => "cannot import `" ++ name ++ "': no such module"
  | cannotLoad path problem => "cannot load `" ++ path ++ "': " ++ problem.reason
  | divisionByZero who => who ++ ": division by zero"
  | user message => message

end SchemeError

end LiveScheme
