import LiveScheme.Form.Control

/-!
# Binding forms

A binding is a name with its initial expression, or a bare name, whose initial value is void. The
initial expressions of `let` see the scope around the form, those of `let*` the bindings before
them, and those of `letrec` all bindings.
-/

namespace LiveScheme.Form

structure LetBinding where
  name : String
  init : Option Value

def letBinding (v : Value) : Run LetBinding :=
  match v with
  | .sym name => return ⟨name, none⟩
  | v =>
    match v.elements? with
    | some [.sym name] => return ⟨name, none⟩
    | some [.sym name, init] => return ⟨name, some init⟩
    | _ => Run.fail .badBinding

def letBindingsOf : List Value → Run (List LetBinding)
  | [] => return []
  | v :: rest => do
    let b ← letBinding v
    return b :: (← letBindingsOf rest)

def letBindings (v : Value) : Run (List LetBinding) :=
  match v.elements? with
  | some items => letBindingsOf items
  | none => Run.fail .badBindings

def initial (g : Engine) (s : Scope) (b : LetBinding) : Run Value :=
  match b.init with
  | some e => g.eval e s
  | none => return .void

def initials (g : Engine) (s : Scope) : List LetBinding → Run (List Value)
  | [] => return []
  | b :: rest => do
    let v ← initial g s b
    return v :: (← initials g s rest)

def tableOf (bindings : List LetBinding) (values : List Value) : Table Value :=
  (bindings.zip values).foldl (fun table entry => table.put entry.1.name entry.2) []

def quoteAll : List Value → Run (List Value)
  | [] => return []
  | v :: rest => do
    let quoted ← Run.newList [.sym "quote", v]
    return quoted :: (← quoteAll rest)

/-- Binds the loop procedure in a frame of its own, where its first call, with the quoted initial
values, is evaluated next. -/
def namedLet (g : Engine) (s : Scope) (name : String) (bindings : Value) (forms : List Value) :
    Run Step := do
  let bindings ← letBindings bindings
  let frame ← Run.newFrame []
  let inner := s.inner frame
  let formals ← Run.newList (bindings.map fun b => .sym b.name)
  let proc ← Closure.make formals forms inner (some name)
  Run.define name proc inner
  let args ← quoteAll (← initials g s bindings)
  return .again (← Run.newList (proc :: args)) inner

def letPlain (g : Engine) (s : Scope) : List Value → Run Step
  | .sym name :: bindings :: forms => namedLet g s name bindings forms
  | bindings :: form :: forms => do
    let bindings ← letBindings bindings
    let values ← initials g s bindings
    let frame ← Run.newFrame (tableOf bindings values)
    g.body (s.inner frame) (form :: forms)
  | _ => arityError .letPlain

def nest (g : Engine) (s : Scope) : List LetBinding → Run Scope
  | [] => return s
  | b :: rest => do
    let v ← initial g s b
    let frame ← Run.newFrame [(b.name, v)]
    nest g (s.inner frame) rest

def letStar (g : Engine) (s : Scope) : List Value → Run Step
  | bindings :: form :: forms => do
    let s ← nest g s (← letBindings bindings)
    let frame ← Run.newFrame []
    g.body (s.inner frame) (form :: forms)
  | _ => arityError .letStar

def fill (g : Engine) (s : Scope) : List LetBinding → Run Unit
  | [] => return ()
  | b :: rest => do
    let v ← initial g s b
    Run.nameClosure v b.name
    Run.define b.name v s
    fill g s rest

def letrec (g : Engine) (s : Scope) : List Value → Run Step
  | bindings :: form :: forms => do
    let bindings ← letBindings bindings
    let frame ← Run.newFrame (tableOf bindings (bindings.map fun _ => .void))
    let inner := s.inner frame
    fill g inner bindings
    g.body inner (form :: forms)
  | _ => arityError .letrec

end LiveScheme.Form
