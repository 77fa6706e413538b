import LiveScheme.Proofs.Machine.Operands

/-!
# Evaluation that checks operands first

In a checked evaluation every operation that refuses operands looks at them before it goes to work,
and a chosen response takes the place of the fault. With the faults themselves as responses it is
plain evaluation, on every machine and within every allowance.
-/

namespace LiveScheme

variable (respond : Fault → Stop)

/-- Looks first at what is refused. -/
def Run.checked {α : Type} (refusal? : Machine → Option Fault) (x : Run α) : Run α := do
  match refusal? (← get) with
  | some f => throw (respond f)
  | none => x

section Responses

variable {respond} {α : Type} {refusal? : Machine → Option Fault} {x : Run α} {m : Machine}

theorem Run.checked_of_some {f : Fault} (h : refusal? m = some f) :
    checked respond refusal? x m = .error (respond f) m := by
  unfold checked
  rw [get_bind, h]
  rfl

theorem Run.checked_of_none (h : refusal? m = none) : checked respond refusal? x m = x m := by
  unfold checked
  rw [get_bind, h]

end Responses

namespace Form

def splitHeadChecked (spec : Value) : Run (Value × Value) :=
  Run.checked respond (fun _ => headRefusal? spec) (splitHead spec)

def defineProcedureChecked (s : Scope) : Nat → Value → List Value → Run Unit
  | 0, _, _ => Run.fail .badDefine
  | depth + 1, spec, forms =>
    if !isHead spec then Run.fail .badDefine
    else if forms.isEmpty then Run.fail .defineNoBody
    else do
      let (head, formals) ← splitHeadChecked respond spec
      match head with
      | .sym name => Run.define name (← Closure.make formals forms s (some name)) s
      | head => do
        let inner ← Run.newList (.sym "lambda" :: formals :: forms)
        defineProcedureChecked s depth head [inner]

def defineChecked (g : Engine) (s : Scope) : List Value → Run Step
  | [] => arityError .define
  | .sym name :: forms => define g s (.sym name :: forms)
  | spec :: forms => do
    defineProcedureChecked respond s (headDepth spec + 1) spec forms
    return .done .void

def defineMacroChecked (g : Engine) (s : Scope) : List Value → Run Step
  | .sym name :: e :: _ => do defineExpander name (← g.eval e s) s
  | spec :: e :: forms => do
    let (head, formals) ← splitHeadChecked respond spec
    match head with
    | .sym name => do
      defineExpander name (← Closure.make formals (e :: forms) s (some name)) s
    | _ => throw (respond .noName)
  | _ => arityError .defineMacro

def caseChecked (g : Engine) (s : Scope) : List Value → Run Step
  | [] => arityError .case
  | key :: clauses => do
    let v ← g.eval key s
    Run.checked respond (fun _ => clausesRefusal? v clauses) (caseClauses g s v clauses)

def includeFilesChecked (g : Engine) (id : Nat) : List Value → Run Unit
  | [] => return ()
  | v :: rest => do
    Run.checked respond (·.includeRefusal? v) (includeFiles g id [v])
    includeFilesChecked g id rest

def declareChecked (g : Engine) (id : Nat) (v : Value) : Run Unit :=
  match v.elements? with
  | some (kind :: items) =>
    if kind.isSym "include" then includeFilesChecked respond g id items else declare g id v
  | _ => declare g id v

def declareAllChecked (g : Engine) (id : Nat) : List Value → Run Unit
  | [] => return ()
  | v :: rest => do
    declareChecked respond g id v
    declareAllChecked g id rest

def defineLibraryChecked (g : Engine) (_ : Scope) : List Value → Run Step
  | [] => arityError .defineLibrary
  | name :: declarations => do
    let id ← Run.makeModule (← Run.moduleName name)
    declareAllChecked respond g id declarations
    return .done .void

end Form

def SpecialForm.runChecked (g : Engine) (s : Scope) (args : List Value) : SpecialForm → Run Step
  | .define => Form.defineChecked respond g s args
  | .defineMacro => Form.defineMacroChecked respond g s args
  | .case => Form.caseChecked respond g s args
  | .defineLibrary => Form.defineLibraryChecked respond g s args
  | f => f.run g s args

def Service.callChecked (g : Engine) (connection : Nat) (args : List Value) :
    Service → Run Value
  | .startLogging => do
    startLogging.count 1 1 args
    let path ← startLogging.textArg (args.headD .void)
    Run.closeLog connection
    Run.checked respond (·.appendRefusal? path "") (Run.openLog connection path)
    return .bool true
  | s => s.call g connection args

def Primitive.callChecked (g : Engine) (s : Scope) (args : List Value) : Primitive → Run Value
  | .builtin b => Run.checked respond (b.refusal? · args) (b.call g s args)
  | .service connection request => request.callChecked respond g connection args

namespace Engine

def callChecked (g : Engine) (proc : Value) (s : Scope) (args : List Value) : Run Step := do
  match ← Run.closure? proc with
  | some c => return .again c.body (← c.bind args)
  | none =>
    match proc with
    | .primitive p => do return .done (← p.callChecked respond g s args)
    | v => Run.fail (.badProcedure (← Run.text v))

def stepChecked (g : Engine) (s : Scope) (e : Value) : Run Step :=
  match e with
  | .list _ (head :: args) => do
    match ← Run.keyword? head s with
    | some (.form f) => f.runChecked respond g s args
    | some (.expander _ _ transformer) => do
      return .again (← g.apply (.closure transformer) args) s
    | none => do
      let proc ← g.eval head s
      g.callChecked respond proc s (← g.evalAll s args)
  | e => g.step s e

end Engine

def performChecked : Nat → Task → Run Value
  | 0, _ => throw .endless
  | fuel + 1, .call p s args => p.callChecked respond ⟨fuel, performChecked fuel⟩ s args
  | fuel + 1, .eval e s => do
    match ← Engine.stepChecked respond ⟨fuel, performChecked fuel⟩ s e with
    | .done v => return v
    | .again e s => performChecked fuel (.eval e s)

def Engine.checked (allowance : Nat) : Engine := ⟨allowance, performChecked respond allowance⟩

/-! ### Faults as responses -/

variable {g : Engine}

theorem Run.checked_fault {α : Type} {refusal? : Machine → Option Fault} {x : Run α}
    (h : ∀ m f, refusal? m = some f → x m = .error (.fault f) m) :
    Run.checked .fault refusal? x = x := by
  funext m
  cases hm : refusal? m with
  | some f => rw [checked_of_some hm, h m f hm]
  | none => exact checked_of_none hm

namespace Form

theorem splitHeadChecked_fault (spec : Value) : splitHeadChecked .fault spec = splitHead spec :=
  Run.checked_fault fun _ _ => splitHead_of_refusal

theorem defineProcedureChecked_fault (s : Scope) (depth : Nat) (spec : Value)
    (forms : List Value) :
    defineProcedureChecked .fault s depth spec forms = defineProcedure s depth spec forms := by
  induction depth generalizing spec forms with
  | zero => rfl
  | succ depth ih =>
    unfold defineProcedureChecked
    simp only [splitHeadChecked_fault, ih]
    rfl

theorem defineChecked_fault (s : Scope) (args : List Value) :
    defineChecked .fault g s args = define g s args := by
  unfold defineChecked
  split
  · rfl
  · rfl
  · next spec forms hspec =>
    rw [define]
    · simp only [defineProcedureChecked_fault]
    · exact hspec

theorem defineMacroChecked_fault (s : Scope) (args : List Value) :
    defineMacroChecked .fault g s args = defineMacro g s args := by
  unfold defineMacroChecked
  simp only [splitHeadChecked_fault]
  rfl

theorem caseChecked_fault (s : Scope) (args : List Value) :
    caseChecked .fault g s args = case g s args := by
  unfold caseChecked
  simp only [Run.checked_fault fun _ _ => caseClauses_of_refusal]
  rfl

theorem includeFilesChecked_fault (id : Nat) (vs : List Value) :
    includeFilesChecked .fault g id vs = includeFiles g id vs := by
  induction vs with
  | nil => rfl
  | cons v rest ih =>
    rw [includeFiles_cons, includeFilesChecked, ih,
      Run.checked_fault fun _ _ => includeFiles_of_refusal]

theorem declareChecked_fault (id : Nat) (v : Value) :
    declareChecked .fault g id v = declare g id v := by
  unfold declareChecked
  split
  · next kind items hv =>
    split
    · next hkind =>
      obtain ⟨name, rfl, rfl⟩ : ∃ name, kind = .sym name ∧ name = "include" := by
        cases kind <;> simp_all [Node.isSym]
      rw [includeFilesChecked_fault, declare, hv]
      rfl
    · rfl
  · rfl

theorem declareAllChecked_fault (id : Nat) (vs : List Value) :
    declareAllChecked .fault g id vs = declareAll g id vs := by
  induction vs with
  | nil => rfl
  | cons v rest ih => rw [declareAllChecked, declareAll, declareChecked_fault, ih]

theorem defineLibraryChecked_fault (s : Scope) (args : List Value) :
    defineLibraryChecked .fault g s args = defineLibrary g s args := by
  unfold defineLibraryChecked
  simp only [declareAllChecked_fault]
  rfl

end Form

theorem SpecialForm.runChecked_fault (s : Scope) (args : List Value) (f : SpecialForm) :
    f.runChecked .fault g s args = f.run g s args := by
  cases f with
  | define => exact Form.defineChecked_fault s args
  | defineMacro => exact Form.defineMacroChecked_fault s args
  | case => exact Form.caseChecked_fault s args
  | defineLibrary => exact Form.defineLibraryChecked_fault s args
  | _ => rfl

theorem Run.openLog_of_refusal {connection : Nat} {path : String} {m : Machine} {f : Fault}
    (h : m.appendRefusal? path "" = some f) : openLog connection path m = .error (.fault f) m :=
  bind_of_error (appendTo_of_refusal h)

theorem Service.callChecked_fault (connection : Nat) (args : List Value) (service : Service) :
    service.callChecked .fault g connection args = service.call g connection args := by
  cases service with
  | startLogging =>
    unfold callChecked
    simp only [Run.checked_fault fun _ _ => Run.openLog_of_refusal]
    rfl
  | _ => rfl

theorem Primitive.callChecked_fault (s : Scope) (args : List Value) (p : Primitive) :
    p.callChecked .fault g s args = p.call g s args := by
  cases p with
  | builtin b => exact Run.checked_fault fun _ _ h => b.call_of_refusal h s
  | service connection request => exact request.callChecked_fault connection args

namespace Engine

theorem callChecked_fault (proc : Value) (s : Scope) (args : List Value) :
    g.callChecked .fault proc s args = g.call proc s args := by
  unfold callChecked
  simp only [Primitive.callChecked_fault]
  rfl

theorem stepChecked_fault (s : Scope) (e : Value) : g.stepChecked .fault s e = g.step s e := by
  unfold stepChecked
  split
  · simp only [SpecialForm.runChecked_fault, callChecked_fault]
    rfl
  · rfl

end Engine

/-- To check first and to fault is what every operation does. -/
theorem performChecked_fault (fuel : Nat) : performChecked .fault fuel = performWithin fuel := by
  induction fuel with
  | zero => rfl
  | succ fuel ih =>
    funext t
    cases t with
    | call p s args => simp only [performChecked, performWithin, ih, Primitive.callChecked_fault]
    | eval e s =>
      unfold performChecked
      simp only [ih, Engine.stepChecked_fault]
      rfl

theorem Engine.checked_fault (allowance : Nat) :
    checked .fault allowance = ofAllowance allowance := by
  rw [checked, performChecked_fault]
  rfl

end LiveScheme
