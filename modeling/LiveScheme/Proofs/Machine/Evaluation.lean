import LiveScheme.Evaluator.Basic
import LiveScheme.Proofs.Machine.Forms
import LiveScheme.Proofs.Machine.Primitives

/-!
# What evaluation does to a machine

Editor services answer with new data and with the captured output of what they evaluate. With them
every step of checked evaluation is tame when the responses are, and by induction on the allowance
so is every checked evaluation, however it ends. Plain evaluation is checked evaluation with faults
as responses, so it makes changes of the known kinds only.
-/

namespace LiveScheme

open Run

variable {R : Fault → Prop}

@[grind .] theorem Reply.tame_value (r : Reply) : r.value.Tame R := Tame.ofDatum _

theorem Reply.moves_value (r : Reply) : r.value.Moves := .ofDatum _

@[grind ←] theorem Reply.tame_capture {x : Run Value} (hx : x.Moves) :
    (Reply.capture x).Tame R := by
  refine (Tame.capturing hx).bind fun ended => ?_
  obtain ⟨outcome, printed⟩ := ended
  cases outcome with
  | ok v => exact Tame.get.bind fun _ => .pure _
  | error stop =>
    cases stop with
    | error e => exact .pure _
    | fault f => exact .pure _
    | exit code => exact .exit code
    | endless => exact .endless

namespace Introspection

@[grind .] theorem tame_classify (modern : Bool) (home : Nat) (name : String) :
    (classify modern home name).Tame R := (Tame.valueIn? _ _).bind fun _ => .pure _

@[grind .] theorem tame_classifyAll (modern : Bool) (home : Nat) (names : List String) :
    (classifyAll modern home names).Tame R := by
  induction names with
  | nil => exact .pure []
  | cons name rest ih => exact (tame_classify _ _ _).bind fun _ => ih.bind fun _ => .pure _

@[grind .] theorem tame_moduleExports (name : Value) : (moduleExports name).Tame R := by
  unfold moduleExports
  grind

end Introspection

namespace Signature

@[grind .] theorem tame_argsValue (sig : Signature) : sig.argsValue.Tame R := by
  refine (Tame.newText _).bind fun _ => (Tame.newList _).bind fun _ => ?_
  refine (Tame.newText _).bind fun _ => (Tame.newText _).bind fun _ => ?_
  refine (Tame.newList _).bind fun _ => (Tame.newText _).bind fun _ => ?_
  refine (Tame.newList _).bind fun _ => (Tame.newText _).bind fun _ => ?_
  exact (Tame.newList _).bind fun _ => .newList _

@[grind .] theorem tame_moduleValue (home : String) : (moduleValue home).Tame R :=
  (Tame.newText _).bind fun _ => .newList _

@[grind .] theorem tame_value (sig : Signature) : sig.value.Tame R :=
  (tame_argsValue sig).bind fun _ => (tame_moduleValue sig.home).bind fun _ => .newList _

end Signature

namespace Introspection

@[grind .] theorem tame_entry (key : String) (v : Value) : (entry key v).Tame R := by
  unfold entry
  grind

@[grind .] theorem tame_lookup? (name : Value) (home : Option Value) :
    (lookup? name home).Tame R := by
  unfold lookup?
  grind

@[grind .] theorem tame_documentation (found : Found) : (documentation found).Tame R := by
  unfold documentation
  refine (Tame.closure? _).bind fun _ => ?_
  split
  · refine (Signature.tame_value _).bind fun _ => ?_
    grind
  · grind
  · refine (Signature.tame_argsValue _).bind fun _ => (Tame.newList _).bind fun _ => ?_
    grind

@[grind .] theorem tame_symbolDocumentation (name : Value) (home : Option Value) :
    (symbolDocumentation name home).Tame R := by
  unfold symbolDocumentation
  grind

@[grind .] theorem tame_autodocEntry (found : Found) : (autodocEntry found).Tame R := by
  unfold autodocEntry
  grind

@[grind .] theorem tame_autodocEntries (home : Option Value) (names : List Value) :
    (autodocEntries home names).Tame R := by
  induction names with
  | nil => exact .pure []
  | cons name rest ih =>
    unfold autodocEntries
    grind

@[grind .] theorem tame_autodoc (names : Value) (home : Option Value) :
    (autodoc names home).Tame R := (tame_autodocEntries _ _).bind fun _ => .newList _

end Introspection

namespace Service

@[grind .] theorem tame_textArg (service : Service) (v : Value) : (service.textArg v).Tame R := by
  unfold textArg
  grind

@[grind .] theorem tame_count (service : Service) (low high : Nat) (args : List Value) :
    (service.count low high args).Tame R := Primitive.tame_checkCount _ _ _ _

@[grind .] theorem tame_newTexts (texts : List String) : (newTexts texts).Tame R := by
  induction texts with
  | nil => exact .pure []
  | cons text rest ih => exact (Tame.newText _).bind fun _ => ih.bind fun _ => .pure _

variable {g : Engine} {respond : Fault → Stop}

@[grind ←] theorem tame_evalReply (hg : g.Tame R) (home form : Value) :
    (evalReply g home form).Tame R :=
  Tame.get.bind fun _ => Reply.tame_capture (hg.eval _ _).moves

@[grind ←] theorem tame_loadReply (hg : g.Tame R) (connection : Nat) (name : String) :
    (loadReply g connection name).Tame R := by
  refine (Tame.connection _).bind fun c => Tame.get.bind fun m => ?_
  cases c.resolve m.disk name with
  | some path => exact Reply.tame_capture ((hg.moves.load path none).bind fun _ => .pure _)
  | none => exact .pure _

@[grind .] theorem tame_addPathReply (connection : Nat) (path : String) :
    (addPathReply connection path).Tame R := by
  refine Reply.tame_capture (Moves.get.bind fun _ => .ite ?_ (.pure _))
  exact (Moves.addPath connection path).bind fun _ => .pure _

/-- A fault of the expansion is passed on as it is. -/
@[grind ←] theorem tame_expansion (hg : g.Tame R) (form : Value) (everything : Bool) :
    (expansion g form everything).Tame R := by
  refine Tame.get.bind fun m => ?_
  have hexpand := hg.expand form (.ofModule m.current) everything
  refine (Tame.attempt hexpand.moves).bind_of fun outcome m' n hended => ?_
  cases outcome with
  | ok v => exact (Tame.text v).bind fun _ => .newText _
  | error stop =>
    cases stop with
    | error e => exact Reply.tame_value _
    | fault f =>
      refine .throw fun f' hf => ?_
      cases hf
      exact (hexpand m').faults (error_of_attempt hended)
    | exit code => exact .exit code
    | endless => exact .endless

theorem tame_callChecked (hg : g.Tame R) (hrespond : ∀ f f', respond f = .fault f' → R f')
    (connection : Nat) (args : List Value) (service : Service) :
    (service.callChecked respond g connection args).Tame R := by
  cases service
  case startLogging =>
    refine (tame_count _ _ _ _).bind fun _ => (tame_textArg _ _).bind fun path => ?_
    refine (Tame.closeLog connection).bind fun _ => .bind (.checked hrespond ?_) fun _ => .pure _
    refine fun m h => ⟨Moves.openLog connection path m, fun hfault => ?_⟩
    obtain ⟨disk, hdisk⟩ := appendTo_of_not_refused h
    rw [openLog, bind_of_ok hdisk] at hfault
    cases hfault
  all_goals
    unfold callChecked call
    grind

end Service

theorem Primitive.tame_callChecked {g : Engine} {respond : Fault → Stop} (hg : g.Tame R)
    (hrespond : ∀ f f', respond f = .fault f' → R f') (s : Scope) (args : List Value)
    (p : Primitive) : (p.callChecked respond g s args).Tame R := by
  cases p with
  | builtin b => exact .checked hrespond fun m h => b.tame_call hg h s
  | service connection request => exact request.tame_callChecked hg hrespond connection args

theorem SpecialForm.tame_runChecked {g : Engine} {respond : Fault → Stop} (hg : g.Tame R)
    (hrespond : ∀ f f', respond f = .fault f' → R f') (s : Scope) (args : List Value)
    (f : SpecialForm) : (f.runChecked respond g s args).Tame R := by
  have htemplate := Quasiquote.tame_template hg
  cases f
  case define => exact Form.tame_defineChecked hg hrespond s args
  case defineMacro => exact Form.tame_defineMacroChecked hg hrespond s args
  case case => exact Form.tame_caseChecked hg hrespond s args
  case defineLibrary => exact Form.tame_defineLibraryChecked hg hrespond s args
  all_goals
    unfold runChecked run
    grind

namespace Engine

theorem Tame.callChecked {g : Engine} {respond : Fault → Stop} (hg : g.Tame R)
    (hrespond : ∀ f f', respond f = .fault f' → R f') (proc : Value) (s : Scope)
    (args : List Value) : (g.callChecked respond proc s args).Tame R := by
  have hcall := Primitive.tame_callChecked hg hrespond s args
  unfold Engine.callChecked
  grind

theorem Tame.stepChecked {g : Engine} {respond : Fault → Stop} (hg : g.Tame R)
    (hrespond : ∀ f f', respond f = .fault f' → R f') (s : Scope) (e : Value) :
    (g.stepChecked respond s e).Tame R := by
  have hform := SpecialForm.tame_runChecked hg hrespond
  have hcall := hg.callChecked hrespond
  unfold Engine.stepChecked
  split
  · next head args =>
    refine (Tame.keyword? _ _).bind fun found => ?_
    split
    · exact hform _ _ _
    · exact (hg.apply _ _).bind fun _ => .pure _
    · exact (hg.eval _ _).bind fun proc => (hg.evalAll _ _).bind fun _ => hcall _ _ _
  · unfold Engine.step
    grind

end Engine

/-- Every task is tame when the responses are, within every allowance. -/
theorem tame_performChecked {respond : Fault → Stop}
    (hrespond : ∀ f f', respond f = .fault f' → R f') (fuel : Nat) (t : Task) :
    (performChecked respond fuel t).Tame R := by
  induction fuel generalizing t with
  | zero => exact .endless
  | succ fuel ih =>
    have hg : Engine.Tame R ⟨fuel, performChecked respond fuel⟩ := ih
    cases t with
    | call p s args => exact Primitive.tame_callChecked hg hrespond s args p
    | eval e s =>
      refine (hg.stepChecked hrespond s e).bind fun result => ?_
      cases result with
      | done v => exact .pure v
      | again e s => exact ih (.eval e s)

/-! ### Plain evaluation -/

theorem Engine.moves_ofAllowance (allowance : Nat) : (Engine.ofAllowance allowance).Moves := by
  rw [← Engine.checked_fault]
  have h : Engine.Tame (fun _ => True) (Engine.checked .fault allowance) :=
    tame_performChecked (fun _ _ _ => trivial) allowance
  exact h.moves

theorem Engine.moves_evalData {g : Engine} (hg : g.Moves) (home : Option Nat) (last : Value)
    (ds : List Datum) : (g.evalData home last ds).Moves := (hg.tame.evalData home last ds).moves

theorem Service.moves_call {g : Engine} (hg : g.Moves) (connection : Nat) (args : List Value)
    (service : Service) : (service.call g connection args).Moves := by
  rw [← callChecked_fault]
  exact (tame_callChecked hg.tame (fun _ _ _ => trivial) connection args service).moves

end LiveScheme
