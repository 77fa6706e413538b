import LiveScheme.Proofs.Machine.Evaluation
import LiveScheme.Proofs.Machine.Invariants

/-!
# What is put back

Two things are changed for a while only: the module that is current while the body of a module or a
file runs, and where output goes while it is captured. Both are as they were when the run in between
is over, by whatever outcome, and whatever it selects, captures or prints itself. For the current
module this needs no knowledge of that run at all. For the console the run may only do what programs
can do: open and close captures in pairs, and print.
-/

namespace LiveScheme

section Preserves

variable {ε σ α β γ : Type}

/-- A program that leaves a part of its state as it is, however it ends. -/
def Preserves (part : σ → γ) (x : EStateM ε σ α) : Prop :=
  ∀ s, match x s with
    | .ok _ s' | .error _ s' => part s' = part s

namespace Preserves

variable {part : σ → γ} {x y : EStateM ε σ α} {f : α → EStateM ε σ β}

theorem pure (a : α) : Preserves part (Pure.pure a : EStateM ε σ α) := fun _ => rfl

theorem throw (e : ε) : Preserves part (throw e : EStateM ε σ α) := fun _ => rfl

theorem get : Preserves part (get : EStateM ε σ σ) := fun _ => rfl

theorem modify {f : σ → σ} (h : ∀ s, part (f s) = part s) :
    Preserves part (modify f : EStateM ε σ PUnit) := h

theorem modifyGet {f : σ → α × σ} (h : ∀ s, part (f s).2 = part s) :
    Preserves part (modifyGet f : EStateM ε σ α) := h

theorem of_ok {a : α} {s s' : σ} (h : Preserves part x) (hx : x s = .ok a s') :
    part s' = part s := by
  have hs := h s
  rwa [hx] at hs

theorem of_error {e : ε} {s s' : σ} (h : Preserves part x) (hx : x s = .error e s') :
    part s' = part s := by
  have hs := h s
  rwa [hx] at hs

theorem bind (hx : Preserves part x) (hf : ∀ a, Preserves part (f a)) :
    Preserves part (x >>= f) := by
  intro s
  cases h : x s with
  | error e s' =>
    rw [bind_of_error h]
    exact hx.of_error h
  | ok a s' =>
    have hs := hf a s'
    rw [hx.of_ok h] at hs
    rwa [bind_of_ok h]

theorem ite {c : Prop} [Decidable c] (hx : Preserves part x) (hy : Preserves part y) :
    Preserves part (if c then x else y) := by
  split
  · exact hx
  · exact hy

end Preserves

end Preserves

namespace Run

variable {α γ : Type} {part : Machine → γ}

theorem after_of_preserves {x : Run α} (h : Preserves part x) (m : Machine) :
    part (x.after m) = part m := by
  unfold Run.after
  cases hx : x m with
  | ok a m' => exact h.of_ok hx
  | error stop m' => exact h.of_error hx

/-- The module that was current is current again, whatever `x` did. -/
theorem preserves_within (id : Nat) (x : Run α) : Preserves (·.current) (within id x) := by
  intro m
  have hwithin : within id x m =
      ensuring x (fun m' => { m' with current := m.current }) { m with current := id } := rfl
  rw [hwithin, ensuring]
  cases x { m with current := id } <;> rfl

/-- Output goes where it went, and none of it was printed there. -/
theorem preserves_capturing {x : Run α} (hx : x.Moves) :
    Preserves (·.console) (capturing x) := by
  intro m
  have hm := hx m.beginCapture
  cases h : x m.beginCapture with
  | ok a m' =>
    rw [after_of_ok h] at hm
    rw [capturing_of_ok h]
    exact hm.console_endCapture
  | error stop m' =>
    rw [after_of_error h] at hm
    rw [capturing_of_error h]
    exact hm.console_endCapture

theorem preserves_fail (e : SchemeError) : Preserves part (fail e : Run α) := .throw _

theorem preserves_described (v : Value) : Preserves part (described v) := .bind .get fun _ => .pure _

theorem preserves_valueIn? (name : String) (id : Nat) : Preserves part (valueIn? name id) := by
  refine .bind .get fun m => ?_
  cases m.searchVariable name id with
  | found home => exact .pure _
  | absent => exact .pure _
  | endless => exact .throw _

theorem preserves_keywordIn? (name : String) (id : Nat) : Preserves part (keywordIn? name id) := by
  refine .bind .get fun m => .ite (.bind (preserves_valueIn? name id) fun found => ?_) ?_
  · rcases found with _ | ⟨v, home⟩
    · exact .pure _
    · cases v with
      | object kind parts => cases kind <;> cases parts <;> exact .pure _
      | _ => exact .pure _
  · cases m.searchExpander name id with
    | found home => exact .pure _
    | absent => exact .pure _
    | endless => exact .throw _

/-- The head of a form is looked up without a change. -/
theorem preserves_keyword? (head : Value) (s : Scope) : Preserves part (keyword? head s) := by
  cases head with
  | sym name => exact .bind .get fun m => .ite (.pure _) (preserves_keywordIn? name s.home)
  | _ => exact .pure _

theorem preserves_label (v : Value) : Preserves part (label v) := .bind .get fun _ => .pure _

theorem preserves_moduleName (v : Value) : Preserves part (moduleName v) := by
  refine .bind .get fun m => ?_
  cases m.moduleName? v with
  | some name => exact .pure name
  | none => exact (preserves_described v).bind fun _ => preserves_fail _

theorem preserves_makeModule (name : String) : Preserves (·.current) (makeModule name) := by
  refine .bind .get fun m => ?_
  cases m.findModule? name with
  | some id => exact .pure id
  | none => exact .modifyGet fun _ => rfl

theorem preserves_exportNames (id : Nat) (names : List String) :
    Preserves (·.current) (exportNames id names) := .modify fun _ => rfl

theorem preserves_importModule (id other : Nat) :
    Preserves (·.current) (importModule id other) := .ite (.pure ()) (.modify fun _ => rfl)

end Run

open Run

variable {g : Engine}

/-- A module selected in a file is left again at its end. -/
theorem Engine.preserves_load (path : String) (home : Option Nat) :
    Preserves (·.current) (g.load path home) := by
  unfold Engine.load
  refine .bind .get fun m => ?_
  dsimp only
  split
  · exact .throw _
  · cases m.disk.read path with
    | error problem => exact preserves_fail _
    | ok text => exact preserves_within _ _

namespace Form

theorem preserves_symbolNames {γ : Type} {part : Machine → γ} (who : String) (vs : List Value) :
    Preserves part (symbolNames who vs) := by
  fun_induction symbolNames who vs with
  | case1 => exact .pure []
  | case2 name rest ih => exact ih.bind fun _ => .pure _
  | case3 v rest hsym => exact (preserves_described v).bind fun _ => preserves_fail _

theorem preserves_isStandardLibrary (v : Value) :
    Preserves (·.current) (isStandardLibrary v) := by
  unfold isStandardLibrary
  split
  · exact (preserves_label _).bind fun _ => .pure _
  · exact .pure false

theorem preserves_importInto (id : Nat) (vs : List Value) :
    Preserves (·.current) (importInto id vs) := by
  induction vs with
  | nil => exact .pure ()
  | cons v rest ih =>
    refine (preserves_moduleName v).bind fun name => .bind .get fun m => ?_
    cases m.findModule? name with
    | some other => exact (preserves_importModule id other).bind fun _ => ih
    | none =>
      refine (preserves_isStandardLibrary v).bind fun standard => ?_
      cases standard with
      | true => exact ih
      | false => exact .bind (preserves_fail _) fun _ => ih

theorem preserves_runIn (id : Nat) (forms : List Value) :
    Preserves (·.current) (runIn g id forms) := preserves_within _ _

theorem preserves_includeFiles (id : Nat) (vs : List Value) :
    Preserves (·.current) (includeFiles g id vs) := by
  induction vs with
  | nil => exact .pure ()
  | cons v rest ih =>
    unfold includeFiles
    cases v.text? with
    | some path => exact (Engine.preserves_load _ _).bind fun _ => ih
    | none => exact .bind (.throw _) fun _ => ih

theorem preserves_declare (id : Nat) (v : Value) : Preserves (·.current) (declare g id v) := by
  unfold declare
  split
  · next kind items _ =>
    refine .ite ?_ (.ite (preserves_importInto id items) (.ite (preserves_runIn id items)
      (.ite (preserves_includeFiles id items) ?_)))
    · exact (preserves_symbolNames "export" items).bind fun names => preserves_exportNames id names
    · exact (preserves_label kind).bind fun _ => preserves_fail _
  · exact preserves_fail _

theorem preserves_declareAll (id : Nat) (vs : List Value) :
    Preserves (·.current) (declareAll g id vs) := by
  induction vs with
  | nil => exact .pure ()
  | cons v rest ih => exact (preserves_declare id v).bind fun _ => ih

/-- A step that ends its expression, with the module as the current one that was before. -/
def Closes (x : Run Step) : Prop :=
  ∃ y : Run Unit, Preserves (·.current) y ∧ x = y >>= fun _ => pure (.done .void)

theorem closes_arityError (f : SpecialForm) : Closes (arityError f) :=
  ⟨Run.fail (.formArity f), preserves_fail _, rfl⟩

theorem closes_defineModule (s : Scope) (args : List Value) : Closes (defineModule g s args) := by
  cases args with
  | nil => exact closes_arityError _
  | cons name forms =>
    refine ⟨do
      let id ← Run.makeModule (← Run.moduleName name)
      runIn g id forms, ?_, by simp only [defineModule, bind_assoc]⟩
    exact (preserves_moduleName name).bind fun name =>
      (preserves_makeModule name).bind fun id => preserves_runIn id forms

theorem closes_defineLibrary (s : Scope) (args : List Value) :
    Closes (defineLibrary g s args) := by
  cases args with
  | nil => exact closes_arityError _
  | cons name declarations =>
    refine ⟨do
      let id ← Run.makeModule (← Run.moduleName name)
      declareAll g id declarations, ?_, by simp only [defineLibrary, bind_assoc]⟩
    exact (preserves_moduleName name).bind fun name =>
      (preserves_makeModule name).bind fun id => preserves_declareAll id declarations

end Form

/-- The forms that make a module and run their body in it. -/
def SpecialForm.makesModule (f : SpecialForm) : Prop := f = .defineModule ∨ f = .defineLibrary

theorem SpecialForm.closes_run {f : SpecialForm} (hf : f.makesModule) (s : Scope)
    (args : List Value) : Form.Closes (f.run g s args) := by
  rcases hf with rfl | rfl
  · exact Form.closes_defineModule s args
  · exact Form.closes_defineLibrary s args

namespace Primitive

theorem preserves_checkCount {γ : Type} {part : Machine → γ} (who : String) (low : Nat)
    (high : Option Nat) (args : List Value) : Preserves part (checkCount who low high args) :=
  .ite (preserves_fail _) (.pure ())

theorem preserves_textArg {γ : Type} {part : Machine → γ} (who : String) (v : Value) :
    Preserves part (textArg who v) := by
  unfold textArg
  split
  · exact .pure _
  · exact .bind (.bind .get fun _ => .pure _) fun _ => preserves_fail _

theorem preserves_load (args : List Value) : Preserves (·.current) (load g args) :=
  (preserves_checkCount _ _ _ _).bind fun _ => (preserves_textArg _ _).bind fun _ =>
    (Engine.preserves_load _ _).bind fun _ => .pure _

end Primitive

namespace Engine

variable {allowance : Nat}

/-- A form that makes a module leaves the current one as it was. -/
theorem current_eval_makesModule {f : SpecialForm} (hf : f.makesModule) {m : Machine} {s : Scope}
    {head : Value} (hhead : Run.keyword? head s m = .ok (some (.form f)) m) (tag : Identity)
    (args : List Value) :
    (((ofAllowance allowance).eval (.list tag (head :: args)) s).after m).current = m.current := by
  cases allowance with
  | zero => rfl
  | succ n =>
    obtain ⟨y, hy, hrun⟩ := SpecialForm.closes_run (g := ⟨n, performWithin n⟩) hf s args
    have hstep : Engine.step ⟨n, performWithin n⟩ s (.list tag (head :: args)) m =
        (y >>= fun _ => pure (.done .void)) m := by
      rw [← hrun]
      exact bind_of_ok hhead
    cases hend : y m with
    | ok _ m' =>
      rw [bind_of_ok hend] at hstep
      have heval : (ofAllowance (n + 1)).eval (.list tag (head :: args)) s m = .ok .void m' :=
        bind_of_ok hstep
      rw [after_of_ok heval]
      exact hy.of_ok hend
    | error stop m' =>
      rw [bind_of_error hend] at hstep
      have heval : (ofAllowance (n + 1)).eval (.list tag (head :: args)) s m = .error stop m' :=
        bind_of_error hstep
      rw [after_of_error heval]
      exact hy.of_error hend

/-- Loading a file from an expression. -/
theorem preserves_call_load (s : Scope) (args : List Value) :
    Preserves (·.current) (g.call (.primitive (.builtin .load)) s args) := by
  change Preserves _ (Primitive.load g args >>= fun v => pure (Step.done v))
  exact (Primitive.preserves_load args).bind fun _ => .pure _

/-- Loading a file from another procedure. -/
theorem preserves_apply_load (args : List Value) :
    Preserves (·.current) ((ofAllowance allowance).apply (.primitive (.builtin .load)) args) := by
  change Preserves _ (get >>= fun m =>
    performWithin allowance (.call (.builtin .load) (.ofModule m.current) args))
  refine .bind .get fun m => ?_
  cases allowance with
  | zero => exact .throw _
  | succ n => exact Primitive.preserves_load args

end Engine

end LiveScheme
