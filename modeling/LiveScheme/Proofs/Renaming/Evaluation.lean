import LiveScheme.Evaluator.Basic
import LiveScheme.Proofs.Renaming.Forms
import LiveScheme.Proofs.Renaming.Primitives
import LiveScheme.Proofs.Renaming.Services

/-!
# Evaluation under a renaming

Every step of an evaluation follows the step of a related one, and by induction on the allowance so
does the evaluation. Related machines therefore answer related values to the same program. Under the
identity a lax comparison is about one program and two allowances: what a program comes to, it comes
to within every larger allowance.
-/

namespace LiveScheme

open Renaming Comparison

variable {ρ : Comparison} {lax : Bool} {g g' : Engine}

theorem Primitive.follows_call (hg : g.Follows ρ lax g') (s : Scope) (args : List Value)
    (p : Primitive) : ρ.Follows lax (p.call g s args) (p.call g' s (ρ.on args)) := by
  cases p with
  | builtin b => exact b.follows_call hg s args
  | service connection service => exact service.follows_call hg connection args

theorem SpecialForm.follows_run (hg : g.Follows ρ lax g') (s : Scope) (args : List Value)
    (f : SpecialForm) : ρ.Follows lax (f.run g s args) (f.run g' s (ρ.on args)) := by
  cases f with
  | quote =>
    rcases args with _ | ⟨v, _ | ⟨w, rest⟩⟩
    · exact Form.follows_arityError _
    · exact .pure rfl
    · exact Form.follows_arityError _
  | quasiquote =>
    rcases args with _ | ⟨v, _ | ⟨w, rest⟩⟩
    · exact Form.follows_arityError _
    · exact .bind (Quasiquote.renamed_template hg s 1 v) fun _ => .pure rfl
    · exact Form.follows_arityError _
  | lambda =>
    rcases args with _ | ⟨formals, _ | ⟨form, forms⟩⟩
    · exact Form.follows_arityError _
    · exact Form.follows_arityError _
    · exact .bind (Closure.follows_make formals (form :: forms) s none) fun _ => .pure rfl
  | define => exact Form.follows_define hg s args
  | assign => exact Form.follows_assign hg s args
  | defineMacro => exact Form.follows_defineMacro hg s args
  | conditional => exact Form.follows_conditional hg s args
  | begin => exact hg.body s args
  | cond => exact Form.follows_cond hg s args
  | case => exact Form.follows_case hg s args
  | and => exact Form.follows_and hg s args
  | or => exact Form.follows_or hg s args
  | whenTrue => exact Form.follows_whenTrue hg s args
  | unlessTrue => exact Form.follows_unlessTrue hg s args
  | letPlain => exact Form.follows_letPlain hg s args
  | letStar => exact Form.follows_letStar hg s args
  | letrec | letrecStar => exact Form.follows_letrec hg s args
  | defineModule => exact Form.follows_defineModule hg s args
  | selectModule => exact Form.follows_selectModule g g' s args
  | exportNames => exact Form.follows_exportNames g g' s args
  | importModules => exact Form.follows_importModules g g' s args
  | defineLibrary => exact Form.follows_defineLibrary hg s args

namespace Engine.Follows

theorem call (hg : g.Follows ρ lax g') (proc : Value) (s : Scope) (args : List Value) :
    ρ.Follows lax (g.call proc s args) (g'.call (ρ.on proc) s (ρ.on args)) := by
  have hbad : ∀ v : Value, ρ.Follows lax
      (do Run.fail (.badProcedure (← Run.text v)) : Run Step)
      (do Run.fail (.badProcedure (← Run.text (ρ.on v)))) :=
    fun v => .bind (keeps_text v) fun _ => .fail _
  refine .bind (keeps_closure? proc) fun c => ?_
  cases c with
  | some c => exact .bind (c.follows_bind args) fun s => .pure rfl
  | none =>
    cases proc with
    | object kind parts =>
      cases kind <;> cases parts <;> first
        | exact hbad _
        | exact .bind (Primitive.follows_call hg s args _) fun _ => .pure rfl
    | _ => exact hbad _

theorem step (hg : g.Follows ρ lax g') (s : Scope) (e : Value) :
    ρ.Follows lax (g.step s e) (g'.step s (ρ.on e)) := by
  cases e with
  | sym name => exact .bind (keeps_lookup name s) fun _ => .pure rfl
  | list tag items =>
    rw [on_list]
    cases items with
    | nil => exact .bind (keeps_newList []) fun _ => .pure rfl
    | cons head args =>
      refine .bind (keeps_keyword? head s) fun keyword => ?_
      rcases keyword with _ | _ | ⟨tag, name, transformer⟩
      · exact .bind (hg.eval head s) fun proc => .bind (hg.evalAll s args) fun args =>
          hg.call proc s args
      · exact SpecialForm.follows_run hg s args _
      · exact .bind (hg.apply (.closure transformer) args) fun _ => .pure rfl
  | improper tag items tail =>
    have htext : ρ.Follows lax (Run.text (.improper tag items tail))
        (Run.text (ρ.on (.improper tag items tail))) := keeps_text _
    rw [on_improper] at htext ⊢
    exact .bind htext fun _ => .fail _
  | vector tag items =>
    rw [on_vector]
    exact .pure (on_vector tag items ▸ rfl)
  | object kind parts =>
    rw [on_object]
    exact .pure (on_object kind parts ▸ rfl)
  | _ => exact .pure rfl

end Engine.Follows

/-- Evaluation follows evaluation, within the same allowance or, in a lax comparison, a larger
one. -/
theorem Engine.follows_ofAllowance {allowance allowance' : Nat} (hle : allowance ≤ allowance')
    (hstrict : lax = false → allowance' = allowance) :
    Engine.Follows ρ lax (.ofAllowance allowance) (.ofAllowance allowance') := by
  induction allowance generalizing allowance' with
  | zero =>
    refine ⟨hle, hstrict, fun t => ?_⟩
    cases hlax : lax with
    | true => exact .giveUp rfl _
    | false =>
      rw [hstrict hlax]
      exact .throw _
  | succ allowance ih =>
    cases allowance' with
    | zero => cases hle
    | succ allowance' =>
      have hg : Engine.Follows ρ lax (.ofAllowance allowance) (.ofAllowance allowance') :=
        ih (Nat.le_of_succ_le_succ hle) fun hlax => Nat.succ.inj (hstrict hlax)
      refine ⟨hle, hstrict, fun t => ?_⟩
      cases t with
      | call p s args => exact Primitive.follows_call hg s args p
      | eval e s =>
        refine .bind (hg.step s e) fun next => ?_
        cases next with
        | done v => exact .pure rfl
        | again e s => exact hg.eval e s

theorem Engine.follows_self (allowance : Nat) :
    Engine.Follows ρ lax (.ofAllowance allowance) (.ofAllowance allowance) :=
  follows_ofAllowance (Nat.le_refl allowance) fun _ => rfl

theorem Engine.Follows.evalData (hg : g.Follows ρ lax g') (home : Option Nat) (last : Value)
    (ds : List Datum) :
    ρ.Follows lax (g.evalData home last ds) (g'.evalData home (ρ.on last) ds) := by
  induction ds generalizing last with
  | nil => exact .pure rfl
  | cons d rest ih =>
    refine .bind (keeps_ofDatum d) fun e => ?_
    exact follows_current
      (f := fun id => g.eval e (.ofModule (home.getD id)) >>= fun v => g.evalData home v rest)
      fun id => .bind (hg.eval e _) fun v => ih v

namespace Comparison

theorem keeps_openConnection (loadPath : List String) (logFile : Option String) :
    ρ.Keeps lax (Run.openConnection loadPath logFile) := by
  refine .bind (.answering (fun m => .openConnection m loadPath) fun m m' hm _ => ?_) fun id => ?_
  · exact ⟨by rw [hm.connections]; rfl, { hm with connections := by rw [hm.connections] }⟩
  · cases logFile with
    | none => exact .pure rfl
    | some path =>
      exact .ite (.pure rfl) (.bind (keeps_startLogging id path) fun _ => .pure rfl)

theorem keeps_bindServices (id : Nat) (services : List Service) :
    ρ.Keeps lax (Run.bindServices id services) := by
  induction services with
  | nil => exact .pure rfl
  | cons service rest ih =>
    exact .bind (keeps_define service.name (.primitive (.service id service)) _) fun _ =>
      .bind (keeps_exportNames _ _) fun _ => ih

end Comparison

end LiveScheme
