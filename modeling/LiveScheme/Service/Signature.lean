import LiveScheme.Evaluator.Expansion
import LiveScheme.Service.Introspection

/-!
# Signatures and documentation

Entries about bound names: the parameters of a closure, the module that binds the name, and the
text of a value that is no procedure.
-/

namespace LiveScheme

structure Signature where
  name : String
  required : List Value
  hasRest : Bool
  home : String

namespace Signature

def ofFormals (name : String) (formals : Formals) (home : String) : Signature :=
  ⟨name, formals.required, formals.rest.isSome, home⟩

def argsValue (sig : Signature) : Run Value := do
  let required ← Run.newList ((← Run.newText "required") :: sig.required)
  let marker ← Run.newText "..."
  let optional ← Run.newList ((← Run.newText "optional") :: if sig.hasRest then [marker] else [])
  let key ← Run.newList [← Run.newText "key"]
  Run.newList [← Run.newText "args", ← Run.newList [required, optional, key]]

def moduleValue (home : String) : Run Value := do
  Run.newList [← Run.newText "module", .sym home]

def value (sig : Signature) : Run Value := do
  Run.newList [.sym sig.name, ← sig.argsValue, ← moduleValue sig.home]

end Signature

namespace Introspection

/-- A key in front of a value, as a list when the value is one. -/
def entry (key : String) (v : Value) : Run Value := do
  let key ← Run.newText key
  match v.elements? with
  | some items => Run.newList (key :: items)
  | none => Run.newImproper [key] v

/-- The name that a symbol or a text that is not empty stands for. -/
def nameOf? (v : Value) : Option String :=
  match v with
  | .sym name => some name
  | v =>
    match v.text? with
    | some (c :: rest) => some (String.ofList (c :: rest))
    | _ => none

structure Found where
  name : String
  value : Value
  home : String

/-- What a name means in a module, if it is bound there. -/
def lookup? (name : Value) (home : Option Value) : Run (Option Found) := do
  match nameOf? name with
  | none => return none
  | some name =>
    let m ← get
    match ← Run.valueIn? name (targetModule m home) with
    | some (v, id) => return some ⟨name, v, (m.module id).name⟩
    | none => return none

def documentation (found : Found) : Run Value := do
  let (signature, docstring) ← match ← Run.closure? found.value, found.value with
    | some c, _ => do
      let sig ← (Signature.ofFormals found.name c.formals found.home).value
      pure (sig, "A procedure in module " ++ found.home ++ ".\n" ++ c.doc)
    | none, .primitive p => do
      pure (← Run.newText "", "A procedure in module " ++ found.home ++ ".\n" ++ p.doc)
    | none, v => do
      let args ← (Signature.mk found.name [] false found.home).argsValue
      let sig ← Run.newList [.sym found.name, args]
      pure (sig, "An object in module " ++ found.home ++ ".\n\nValue:\n" ++ (← Run.text v))
  let signature ← entry "signature" signature
  Run.newList [signature, ← entry "docstring" (← Run.newText docstring)]

/-- The signature and documentation of a name; the empty text when it is unbound. -/
def symbolDocumentation (name : Value) (home : Option Value) : Run Value := do
  match ← lookup? name home with
  | some found => documentation found
  | none => Run.newText ""

def autodocEntry (found : Found) : Run Value := do
  match ← Run.closure? found.value, found.value with
  | some c, _ => (Signature.ofFormals found.name c.formals found.home).value
  | none, .primitive _ => do
    Run.newList [.sym found.name, ← Signature.moduleValue found.home]
  | none, v => do
    let shown ← entry "value" (← Run.newText (← Run.text v))
    Run.newList [.sym found.name, shown, ← Signature.moduleValue found.home]

def autodocEntries (home : Option Value) : List Value → Run (List Value)
  | [] => return []
  | name :: rest => do
    match ← lookup? name home with
    | some found => do
      let here ← autodocEntry found
      return here :: (← autodocEntries home rest)
    | none => autodocEntries home rest

/-- One entry for each bound name, in order. -/
def autodoc (names : Value) (home : Option Value) : Run Value := do
  Run.newList (← autodocEntries home ((names.elements?).getD [names]))

end Introspection

end LiveScheme
