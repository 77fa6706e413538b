import LiveScheme.Proofs.Mirror.Sequence

/-!
# Evaluation that gives up at refused operands

Cautious evaluation checks operands first and gives up when an operation refuses them. Plain
evaluation mirrors it, so that a program on which cautious evaluation does not give up ends as it
does there, and a checked evaluation has no other faults than those that it responds with. Hence no
program faults unless an operation refuses its operands.
-/

namespace LiveScheme

/-- Gives up at the first operands that are refused. -/
def Engine.cautious (allowance : Nat) : Engine := checked (fun _ => .endless) allowance

namespace Ending

/-- The evaluation ended with a value, with an error of the language or with an exit. -/
def IsOrderly (ending : Ending) : Prop :=
  match ending.outcome with
  | .ok _ | .error (.error _) | .error (.exit _) => True
  | .error (.fault _) | .error .endless => False

theorem isOrderly_of {ending : Ending} (hgiving : ¬ ending.GivesUp)
    (hfault : ∀ f, ending.outcome ≠ .error (.fault f)) : ending.IsOrderly := by
  obtain ⟨outcome, m⟩ := ending
  cases outcome with
  | ok v => trivial
  | error stop =>
    cases stop with
    | error e => trivial
    | exit code => trivial
    | fault f => exact hfault f rfl
    | endless => exact hgiving rfl

end Ending

/-! ### The standard that everything meets -/

namespace Standard

def lenient : Standard := ⟨true, true, true⟩

theorem admits_lenient (kind : Object) : admits lenient kind = true := by
  cases kind with
  | primitive p => cases p <;> rfl
  | _ => rfl

mutual

theorem meets_lenient : ∀ v : Value, Meets lenient v
  | .bool _ | .int _ | .real _ _ | .str _ _ | .char _ | .sym _ => rfl
  | .list _ items => meets_list.mpr (meets_all_lenient items)
  | .vector _ items => meets_vector.mpr (meets_all_lenient items)
  | .improper _ items tail =>
    meets_improper.mpr ⟨.inl rfl, meets_all_lenient items, meets_lenient tail⟩
  | .object kind parts => meets_object.mpr ⟨admits_lenient kind, meets_all_lenient parts⟩

theorem meets_all_lenient : ∀ vs : List Value, Meets lenient vs
  | [] => meets_nil.mpr trivial
  | v :: rest => meets_cons.mpr ⟨meets_lenient v, meets_all_lenient rest⟩

end

theorem upholds_lenient (m : Machine) : m.Upholds lenient where
  keywords _ := rfl
  frames _ _ entry _ := ⟨trivial, meets_lenient entry.2⟩
  modules _ _ entry _ := ⟨trivial, meets_lenient entry.2⟩
  closures c _ := ⟨meets_all_lenient c.formals.required, meets_lenient c.body⟩

end Standard

open Link

section Mirroring

variable {S : Standard} {g g' : Engine}

/-- To give up is forgiven; what is not refused is left as it is. -/
theorem mirrors_checked {α : Type} [Checkable α] {refusal? : Machine → Option Fault} {x x' : Run α}
    (hx : (same S true).Mirrors x x') :
    (same S true).Mirrors (Run.checked (fun _ => .endless) refusal? x)
      (Run.checked .fault refusal? x') := by
  refine same_mirrors_get fun m _ => ?_
  cases refusal? m with
  | some f => exact forgiving_same.follows _
  | none => exact hx

namespace Form

theorem mirrors_caseChecked (hg : g.Mirrors (same S true) g') (s : Scope) {args : List Value}
    (hargs : Meets S args) :
    (same S true).Mirrors (caseChecked (fun _ => .endless) g s args)
      (caseChecked .fault g' s args) := by
  cases args with
  | nil => exact .fail _
  | cons key clauses =>
    obtain ⟨hkey, hclauses⟩ := meets_cons.mp hargs
    exact .bind (hg.eval hkey s) fun v _ => mirrors_checked (mirrors_caseClauses hg s v hclauses)

theorem mirrors_splitHeadChecked {spec : Value} (hspec : Meets S spec) :
    (same S true).Mirrors (splitHeadChecked (fun _ => .endless) spec)
      (splitHeadChecked .fault spec) :=
  mirrors_checked (keeps_splitHead hspec)

theorem mirrors_defineProcedureChecked (s : Scope) (depth : Nat) {spec : Value}
    {forms : List Value} (hspec : Meets S spec) (hforms : Meets S forms) :
    (same S true).Mirrors (defineProcedureChecked (fun _ => .endless) s depth spec forms)
      (defineProcedureChecked .fault s depth spec forms) := by
  induction depth generalizing spec forms with
  | zero => exact .fail _
  | succ depth ih =>
    have hsplit := mirrors_splitHeadChecked hspec
    unfold defineProcedureChecked
    grind

theorem mirrors_defineChecked (hg : g.Mirrors (same S true) g') (s : Scope) {args : List Value}
    (hargs : Meets S args) :
    (same S true).Mirrors (defineChecked (fun _ => .endless) g s args)
      (defineChecked .fault g' s args) := by
  unfold defineChecked
  split
  · exact .fail _
  · exact mirrors_define hg s hargs
  · obtain ⟨hspec, hforms⟩ := meets_cons.mp hargs
    exact .bind (mirrors_defineProcedureChecked s _ hspec hforms) fun _ _ => .pure meets_void

theorem mirrors_defineMacroChecked (hg : g.Mirrors (same S true) g') (s : Scope)
    {args : List Value} (hargs : Meets S args) :
    (same S true).Mirrors (defineMacroChecked (fun _ => .endless) g s args)
      (defineMacroChecked .fault g' s args) := by
  unfold defineMacroChecked
  split
  · grind
  · obtain ⟨hspec, hforms⟩ := meets_cons.mp hargs
    refine .bind (mirrors_splitHeadChecked hspec) fun headed hheaded => ?_
    dsimp only
    split
    · exact .bind (Closure.keeps_make hheaded.2 hforms _ _) fun _ _ => keeps_defineExpander _ _ _
    · exact forgiving_same.follows _
  · exact .fail _

theorem mirrors_includeFilesChecked (hg : g.Mirrors (same S true) g') (id : Nat)
    (vs : List Value) :
    (same S true).Mirrors (includeFilesChecked (fun _ => .endless) g id vs)
      (includeFilesChecked .fault g' id vs) := by
  induction vs with
  | nil => exact .pure trivial
  | cons v rest ih =>
    exact .bind (mirrors_checked (mirrors_includeFiles hg id [v])) fun _ _ => ih

theorem mirrors_declareChecked (hg : g.Mirrors (same S true) g') (id : Nat) {v : Value}
    (hv : Meets S v) :
    (same S true).Mirrors (declareChecked (fun _ => .endless) g id v)
      (declareChecked .fault g' id v) := by
  unfold declareChecked
  split
  · exact .ite (mirrors_includeFilesChecked hg id _) (mirrors_declare hg id hv)
  · exact mirrors_declare hg id hv

theorem mirrors_declareAllChecked (hg : g.Mirrors (same S true) g') (id : Nat) {vs : List Value}
    (hvs : Meets S vs) :
    (same S true).Mirrors (declareAllChecked (fun _ => .endless) g id vs)
      (declareAllChecked .fault g' id vs) := by
  induction vs with
  | nil => exact .pure trivial
  | cons v rest ih =>
    obtain ⟨hv, hrest⟩ := meets_cons.mp hvs
    exact .bind (mirrors_declareChecked hg id hv) fun _ _ => ih hrest

theorem mirrors_defineLibraryChecked (hg : g.Mirrors (same S true) g') (s : Scope)
    {args : List Value} (hargs : Meets S args) :
    (same S true).Mirrors (defineLibraryChecked (fun _ => .endless) g s args)
      (defineLibraryChecked .fault g' s args) := by
  cases args with
  | nil => exact .fail _
  | cons name declarations =>
    exact .bind (keeps_moduleName _) fun _ _ => .bind (Lawful.makeModule _) fun id _ =>
      .bind (mirrors_declareAllChecked hg id (meets_cons.mp hargs).2) fun _ _ => .pure meets_void

end Form

theorem SpecialForm.mirrors_runChecked (hS : S.loosePairs = true) (hg : g.Mirrors (same S true) g')
    (s : Scope) {args : List Value} (hargs : Meets S args) (f : SpecialForm) :
    (same S true).Mirrors (f.runChecked (fun _ => .endless) g s args)
      (f.runChecked .fault g' s args) := by
  cases f
  case define => exact Form.mirrors_defineChecked hg s hargs
  case defineMacro => exact Form.mirrors_defineMacroChecked hg s hargs
  case case => exact Form.mirrors_caseChecked hg s hargs
  case defineLibrary => exact Form.mirrors_defineLibraryChecked hg s hargs
  case quasiquote =>
    have hwatched := mirrors_runWatched (Watch.passes_idle hS) hg s hargs .quasiquote
    simp only [runWatched_idle] at hwatched
    exact hwatched
  all_goals
    unfold runChecked
    exact mirrors_run hg s hargs (by decide)

/-- Editor services go along with loose pairs only. -/
theorem Service.mirrors_callChecked (hS : S.loosePairs = true) (hg : g.Mirrors (same S true) g')
    (connection : Nat) {args : List Value} (service : Service) (hargs : Meets S args) :
    (same S true).Mirrors (service.callChecked (fun _ => .endless) g connection args)
      (service.callChecked .fault g' connection args) := by
  cases service
  case startLogging =>
    have hopen : ∀ path, (same S true).Keeps (Run.openLog connection path) := fun path =>
      .bind (keeps_appendTo path "") fun _ _ => keeps_modifyConnection _ _
    refine .bind (keeps_count _ _ _ _) fun _ _ => .bind (keeps_textArg _ _) fun path _ => ?_
    exact .bind (keeps_modifyConnection _ _) fun _ _ =>
      .bind (mirrors_checked (hopen path)) fun _ _ => .pure (meets_bool _)
  all_goals
    unfold callChecked
    exact mirrors_call hS hg connection _ hargs

theorem Primitive.mirrors_callChecked (hS : S.loosePairs = true) (hg : g.Mirrors (same S true) g')
    (s : Scope) {args : List Value} {p : Primitive} (hp : Meets S (Value.primitive p))
    (hargs : Meets S args) :
    (same S true).Mirrors (p.callChecked (fun _ => .endless) g s args)
      (p.callChecked .fault g' s args) := by
  cases p with
  | builtin b =>
    exact mirrors_checked (mirrors_call (p := .builtin b) (Watch.passes_idle hS) hg s hp hargs rfl)
  | service connection service => exact service.mirrors_callChecked hS hg connection hargs

namespace Engine.Mirrors

theorem callChecked (hS : S.loosePairs = true) (hg : g.Mirrors (same S true) g') {proc : Value}
    (s : Scope) {args : List Value} (hproc : Meets S proc) (hargs : Meets S args) :
    (same S true).Mirrors (g.callChecked (fun _ => .endless) proc s args)
      (g'.callChecked .fault proc s args) := by
  refine .bind (Lawful.closure? proc) fun c hc => ?_
  cases c with
  | some c => exact .bind (c.keeps_bind hargs) fun s _ => .pure (meets_some.mp hc).2
  | none =>
    dsimp only
    split
    · exact .bind (Primitive.mirrors_callChecked hS hg s hproc hargs) fun _ hv => .pure hv
    · exact .bind (keeps_text _) fun _ _ => .throw _

theorem stepChecked (hS : S.loosePairs = true) (hg : g.Mirrors (same S true) g') (s : Scope)
    {e : Value} (he : Meets S e) :
    (same S true).Mirrors (g.stepChecked (fun _ => .endless) s e) (g'.stepChecked .fault s e) := by
  unfold Engine.stepChecked
  split
  · next tag head args =>
    obtain ⟨hhead, hargs⟩ := meets_cons.mp (meets_list.mp he)
    refine .bind (keeps_keyword? head s) fun k _ => ?_
    split
    · exact SpecialForm.mirrors_runChecked hS hg s hargs _
    · refine .bind (hg.apply ?_ hargs) fun _ h => .pure h
      exact meets_object.mpr ⟨rfl, meets_nil.mpr trivial⟩
    · exact .bind (hg.eval hhead s) fun proc hproc => .bind (hg.evalAll s hargs) fun args hargs =>
        callChecked hS hg s hproc hargs
  · have hwatched := stepWatched (Watch.passes_idle hS) hg s he
    simp only [stepWatched_idle] at hwatched
    exact hwatched

end Engine.Mirrors

/-- Plain evaluation mirrors cautious evaluation, within every allowance. -/
theorem mirrors_cautious (hS : S.loosePairs = true) (allowance : Nat) :
    Engine.Mirrors (same S true) (.cautious allowance) (.ofAllowance allowance) := by
  rw [← Engine.checked_fault]
  induction allowance with
  | zero => exact ⟨rfl, fun t _ => .throw _⟩
  | succ fuel ih =>
    refine ⟨rfl, fun t ht => ?_⟩
    cases t with
    | call p s args => exact Primitive.mirrors_callChecked hS ih s ht.1 ht.2
    | eval e s =>
      refine .bind (Engine.Mirrors.stepChecked hS ih s ht) fun step hstep => ?_
      cases step with
      | done v => exact .pure hstep
      | again e s => exact ih.perform _ hstep

end Mirroring

namespace Engine

theorem evalText_of_read {text : String} {forms : List Datum} (h : Datum.readAll text = .ok forms)
    (g : Engine) (home : Option Nat) : g.evalText text home = g.evalData home .void forms := by
  rw [evalText, h]
  rfl

/-- The only faults of checked evaluation are those that it responds with. -/
theorem ne_fault_of_checked {respond : Fault → Stop} (hrespond : ∀ f f', respond f ≠ .fault f')
    (allowance : Nat) (home : Option Nat) (forms : List Datum) (m : Machine) (f : Fault)
    (n : Machine) :
    (checked respond allowance).evalData home .void forms m ≠ .error (.fault f) n := by
  have htame : Engine.Tame (fun _ => False) (checked respond allowance) :=
    tame_performChecked (fun f f' h => hrespond f f' h) allowance
  exact (htame.evalData home .void forms m).faults

/-- Plain evaluation ends as cautious evaluation does, when that does not give up. -/
theorem evalData_eq_cautious {allowance : Nat} {home : Option Nat} {forms : List Datum}
    {m : Machine} (h : ¬ (Ending.ofResult
      ((cautious allowance).evalData home .void forms m)).GivesUp) :
    (ofAllowance allowance).evalData home .void forms m =
      (cautious allowance).evalData home .void forms m := by
  have hmirrors := (mirrors_cautious (S := .lenient) rfl allowance).evalData home
    (Standard.meets_lenient .void) (Datum.meets_all_of_loose rfl forms)
  rcases same_cases hmirrors (Standard.upholds_lenient m) with ⟨-, n, hend, -⟩ | ⟨heq, -⟩
  · rw [hend] at h
    exact absurd rfl h
  · exact heq

/-- A vector that is made a list, by a procedure that is defined first. -/
def listingText : String := "(define (listing v) (vector->list v)) (listing #(1 2))"

end Engine

end LiveScheme
