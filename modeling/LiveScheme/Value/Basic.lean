import LiveScheme.Datum.Basic
import LiveScheme.Number.Basic
import LiveScheme.Value.Builtin
import LiveScheme.Value.Service

/-!
# Runtime values

A value is a data tree whose compound parts have identities and whose leaves may be runtime
objects. Procedures and modules are named by their places in the machine that owns them. The object
that stands for several values at once holds them as its parts; no other object has parts.
-/

namespace LiveScheme

/-- Two compound values are the same object exactly when their identities agree. -/
inductive Identity
  | fresh (n : Nat)
  | symbolName
  | versionText
deriving DecidableEq, Repr

inductive Port
  | output
  | error
deriving DecidableEq, Repr

inductive SpecialForm
  | quote | quasiquote | lambda | define | assign | defineMacro | conditional | begin | cond
  | case | and | or | whenTrue | unlessTrue | letPlain | letStar | letrec | letrecStar
  | defineModule | selectModule | exportNames | importModules | defineLibrary
deriving DecidableEq, Repr

namespace SpecialForm

def all : List SpecialForm := [
  .quote, .quasiquote, .lambda, .define, .assign, .defineMacro, .conditional, .begin, .cond,
  .case, .and, .or, .whenTrue, .unlessTrue, .letPlain, .letStar, .letrec, .letrecStar,
  .defineModule, .selectModule, .exportNames, .importModules, .defineLibrary]

def name : SpecialForm → String
  | quote => "quote"
  | quasiquote => "quasiquote"
  | lambda => "lambda"
  | define => "define"
  | assign => "set!"
  | defineMacro => "define-macro"
  | conditional => "if"
  | begin => "begin"
  | cond => "cond"
  | case => "case"
  | and => "and"
  | or => "or"
  | whenTrue => "when"
  | unlessTrue => "unless"
  | letPlain => "let"
  | letStar => "let*"
  | letrec => "letrec"
  | letrecStar => "letrec*"
  | defineModule => "define-module"
  | selectModule => "select-module"
  | exportNames => "export"
  | importModules => "import"
  | defineLibrary => "define-library"

end SpecialForm

/-- What a name denotes when it is a keyword: a special form, or an expander whose closure turns
the call into another form. -/
inductive Keyword
  | form (f : SpecialForm)
  | expander (tag : Identity) (name : String) (transformer : Nat)
deriving DecidableEq, Repr

def Keyword.name : Keyword → String
  | form f => f.name
  | expander _ name _ => name

/-- A procedure that the runtime provides; services belong to the connection that bound them. -/
inductive Primitive
  | builtin (b : Builtin)
  | service (connection : Nat) (s : Service)
deriving DecidableEq, Repr

def Primitive.name : Primitive → String
  | builtin b => b.name
  | service _ s => s.name

def Primitive.doc : Primitive → String
  | builtin b => b.doc
  | service _ s => s.doc

inductive Object
  | void
  | several (tag : Identity)
  | closure (id : Nat)
  | primitive (p : Primitive)
  | keyword (k : Keyword)
  | space (id : Nat)
  | port (p : Port)
deriving DecidableEq, Repr

abbrev Value := Node Identity Object

namespace Value

@[match_pattern] abbrev void : Value := Node.object .void []
@[match_pattern] abbrev several (tag : Identity) (parts : List Value) : Value :=
  Node.object (.several tag) parts
@[match_pattern] abbrev closure (id : Nat) : Value := Node.object (.closure id) []
@[match_pattern] abbrev primitive (p : Primitive) : Value := Node.object (.primitive p) []
@[match_pattern] abbrev keyword (k : Keyword) : Value := Node.object (.keyword k) []
@[match_pattern] abbrev space (id : Nat) : Value := Node.object (.space id) []
@[match_pattern] abbrev port (p : Port) : Value := Node.object (.port p) []

def number? : Value → Option Number
  | .int n => some (.int n)
  | .real _ x => some (.real x)
  | _ => none

/-- The integer that an index or a code denotes; truth values count as one and zero. -/
def index? : Value → Option Int
  | .int n => some n
  | .bool b => some (if b then 1 else 0)
  | _ => none

def isProcedure : Value → Bool
  | closure _ | primitive _ => true
  | _ => false

/-- The values that a result stands for. -/
def spread : Value → List Value
  | several _ parts => parts
  | void => []
  | v => [v]

/-- The word for the kind of a value in fault texts. -/
def kindWord : Value → String
  | .bool _ => "truth value"
  | .int _ => "integer"
  | .real _ _ => "float"
  | .str _ _ => "string"
  | .char _ => "character"
  | .sym _ => "symbol"
  | .list _ _ => "list"
  | .vector _ _ => "vector"
  | .improper _ _ _ => "pair"
  | .object .void _ => "void"
  | .object (.several _) _ => "values"
  | .object (.closure _) _ => "closure"
  | .object (.primitive _) _ => "primitive"
  | .object (.keyword _) _ => "keyword"
  | .object (.space _) _ => "module"
  | .object (.port _) _ => "port"

end Value

end LiveScheme
