import LiveScheme.Form.Binding
import LiveScheme.Form.Definition
import LiveScheme.Form.Modules
import LiveScheme.Form.Quasiquote
import LiveScheme.Proofs.Machine.Engines

/-!
# What special forms do to a machine

Every special form that checks its operands is tame when its engine and the responses are. Clauses,
bindings and templates are followed by recursion on the form; a form that defines a module leaves
the current one as it was.
-/

namespace LiveScheme

open Run

variable {R : Fault → Prop} {g : Engine} {respond : Fault → Stop}

namespace Form

section Control

@[grind .] theorem tame_arityError {α : Type} (f : SpecialForm) :
    (arityError f : Run α).Tame R := Tame.fail _

@[grind ←] theorem tame_conditional (hg : g.Tame R) (s : Scope) (args : List Value) :
    (conditional g s args).Tame R := by
  unfold conditional
  grind

@[grind ←] theorem tame_clauseBody (hg : g.Tame R) (s : Scope) (v : Value) (forms : List Value) :
    (clauseBody g s v forms).Tame R := by
  unfold clauseBody
  grind

@[grind ←] theorem tame_cond (hg : g.Tame R) (s : Scope) (clauses : List Value) :
    (cond g s clauses).Tame R := by
  induction clauses with
  | nil => exact .pure _
  | cons clause rest ih =>
    unfold cond
    grind

theorem tame_caseClauses (hg : g.Tame R) (s : Scope) {key : Value} {clauses : List Value}
    (h : clausesRefusal? key clauses = none) : (caseClauses g s key clauses).Tame R := by
  induction clauses with
  | nil => exact .pure _
  | cons clause rest ih =>
    unfold clausesRefusal? at h
    unfold caseClauses
    split
    · next data forms hclause =>
      rw [hclause] at h
      dsimp only at h
      split
      · exact hg.body s forms
      · next helse =>
        rw [if_neg helse] at h
        cases hkeys : clauseKeys data with
        | error f => rw [hkeys] at h; cases h
        | ok keys =>
          rw [hkeys] at h
          simp only [Run.ofFault, pure_bind]
          split
          · exact hg.body s forms
          · next hnone =>
            dsimp only at h
            rw [if_neg hnone] at h
            exact ih h
    · exact .fail _

theorem tame_caseChecked (hg : g.Tame R) (hrespond : ∀ f f', respond f = .fault f' → R f')
    (s : Scope) (args : List Value) : (caseChecked respond g s args).Tame R := by
  cases args with
  | nil => exact tame_arityError _
  | cons key clauses =>
    exact (hg.eval key s).bind fun v =>
      .checked hrespond fun m h => tame_caseClauses hg s h m

@[grind ←] theorem tame_and (hg : g.Tame R) (s : Scope) (es : List Value) :
    (and g s es).Tame R := by
  fun_induction and g s es <;> grind

@[grind ←] theorem tame_or (hg : g.Tame R) (s : Scope) (es : List Value) : (or g s es).Tame R := by
  fun_induction or g s es <;> grind

@[grind ←] theorem tame_whenTrue (hg : g.Tame R) (s : Scope) (args : List Value) :
    (whenTrue g s args).Tame R := by
  unfold whenTrue
  grind

@[grind ←] theorem tame_unlessTrue (hg : g.Tame R) (s : Scope) (args : List Value) :
    (unlessTrue g s args).Tame R := by
  unfold unlessTrue
  grind

end Control

section Binding

@[grind .] theorem tame_letBinding (v : Value) : (letBinding v).Tame R := by
  unfold letBinding
  grind

@[grind .] theorem tame_letBindingsOf (vs : List Value) : (letBindingsOf vs).Tame R := by
  induction vs with
  | nil => exact .pure []
  | cons v rest ih => exact (tame_letBinding v).bind fun _ => ih.bind fun _ => .pure _

@[grind .] theorem tame_letBindings (v : Value) : (letBindings v).Tame R := by
  unfold letBindings
  grind

@[grind ←] theorem tame_initial (hg : g.Tame R) (s : Scope) (b : LetBinding) :
    (initial g s b).Tame R := by
  unfold initial
  grind

@[grind ←] theorem tame_initials (hg : g.Tame R) (s : Scope) (bs : List LetBinding) :
    (initials g s bs).Tame R := by
  induction bs with
  | nil => exact .pure []
  | cons b rest ih => exact (tame_initial hg s b).bind fun _ => ih.bind fun _ => .pure _

@[grind .] theorem tame_quoteAll (vs : List Value) : (quoteAll vs).Tame R := by
  induction vs with
  | nil => exact .pure []
  | cons v rest ih => exact (Tame.newList _).bind fun _ => ih.bind fun _ => .pure _

@[grind ←] theorem tame_namedLet (hg : g.Tame R) (s : Scope) (name : String) (bindings : Value)
    (forms : List Value) : (namedLet g s name bindings forms).Tame R := by
  refine (tame_letBindings _).bind fun _ => (Tame.newFrame _).bind fun _ => ?_
  refine (Tame.newList _).bind fun _ => (Closure.tame_make _ _ _ _).bind fun _ => ?_
  refine (Tame.define _ _ _).bind fun _ => (tame_initials hg _ _).bind fun _ => ?_
  exact (tame_quoteAll _).bind fun _ => (Tame.newList _).bind fun _ => .pure _

@[grind ←] theorem tame_letPlain (hg : g.Tame R) (s : Scope) (args : List Value) :
    (letPlain g s args).Tame R := by
  unfold letPlain
  grind

@[grind ←] theorem tame_nest (hg : g.Tame R) (s : Scope) (bs : List LetBinding) :
    (nest g s bs).Tame R := by
  induction bs generalizing s with
  | nil => exact .pure s
  | cons b rest ih =>
    exact (tame_initial hg s b).bind fun _ => (Tame.newFrame _).bind fun _ => ih _

@[grind ←] theorem tame_letStar (hg : g.Tame R) (s : Scope) (args : List Value) :
    (letStar g s args).Tame R := by
  unfold letStar
  grind

@[grind ←] theorem tame_fill (hg : g.Tame R) (s : Scope) (bs : List LetBinding) :
    (fill g s bs).Tame R := by
  induction bs with
  | nil => exact .pure ()
  | cons b rest ih =>
    exact (tame_initial hg s b).bind fun _ => (Tame.nameClosure _ _).bind fun _ =>
      (Tame.define _ _ _).bind fun _ => ih

@[grind ←] theorem tame_letrec (hg : g.Tame R) (s : Scope) (args : List Value) :
    (letrec g s args).Tame R := by
  unfold letrec
  grind

end Binding

section Definition

theorem tame_splitHeadChecked (hrespond : ∀ f f', respond f = .fault f' → R f') (spec : Value) :
    (splitHeadChecked respond spec).Tame R := by
  refine .checked hrespond fun m h => ?_
  have hsplit : (splitHead spec).Tame R := by
    unfold headRefusal? at h
    unfold splitHead
    split at h <;> grind
  exact hsplit m

theorem tame_defineProcedureChecked (hrespond : ∀ f f', respond f = .fault f' → R f') (s : Scope)
    (depth : Nat) (spec : Value) (forms : List Value) :
    (defineProcedureChecked respond s depth spec forms).Tame R := by
  have hsplit := tame_splitHeadChecked hrespond
  induction depth generalizing spec forms with
  | zero =>
    unfold defineProcedureChecked
    grind
  | succ depth ih =>
    refine .ite (.fail _) (.ite (.fail _) ((hsplit spec).bind fun headed => ?_))
    dsimp only
    split
    · exact (Closure.tame_make _ _ _ _).bind fun _ => .define _ _ _
    · exact (Tame.newList _).bind fun _ => ih _ _

theorem tame_defineChecked (hg : g.Tame R) (hrespond : ∀ f f', respond f = .fault f' → R f')
    (s : Scope) (args : List Value) : (defineChecked respond g s args).Tame R := by
  unfold defineChecked
  split
  · exact tame_arityError _
  · unfold define
    grind
  · exact (tame_defineProcedureChecked hrespond _ _ _ _).bind fun _ => .pure _

@[grind ←] theorem tame_assign (hg : g.Tame R) (s : Scope) (args : List Value) :
    (assign g s args).Tame R := by
  unfold assign
  grind

@[grind .] theorem tame_defineExpander (name : String) (transformer : Value) (s : Scope) :
    (defineExpander name transformer s).Tame R := by
  unfold defineExpander
  grind

theorem tame_defineMacroChecked (hg : g.Tame R) (hrespond : ∀ f f', respond f = .fault f' → R f')
    (s : Scope) (args : List Value) : (defineMacroChecked respond g s args).Tame R := by
  have hsplit := tame_splitHeadChecked hrespond
  have hnameless : (throw (respond .noName) : Run Step).Tame R := .throw (hrespond .noName)
  unfold defineMacroChecked
  split
  · grind
  · refine (hsplit _).bind fun headed => ?_
    dsimp only
    split
    · exact (Closure.tame_make _ _ _ _).bind fun _ => tame_defineExpander _ _ _
    · exact hnameless
  · exact tame_arityError _

end Definition

section Modules

@[grind .] theorem tame_symbolNames (who : String) (vs : List Value) :
    (symbolNames who vs).Tame R := by
  fun_induction symbolNames who vs <;> grind

@[grind ←] theorem tame_runIn (hg : g.Tame R) (id : Nat) (forms : List Value) :
    (runIn g id forms).Tame R := Tame.within id (hg.runAll _ forms)

@[grind ←] theorem tame_defineModule (hg : g.Tame R) (s : Scope) (args : List Value) :
    (defineModule g s args).Tame R := by
  unfold defineModule
  grind

@[grind .] theorem tame_selectModule (s : Scope) (args : List Value) :
    (selectModule g s args).Tame R := by
  unfold selectModule
  split
  · refine (Tame.moduleName _).bind fun name => ?_
    refine fun m => .of_eq (get_bind _ m) ?_
    cases h : m.findModule? name with
    | some id => exact ⟨.selectModule m name id h, nofun⟩
    | none => exact ⟨.refl m, nofun⟩
  · exact tame_arityError _

@[grind .] theorem tame_exportNames (s : Scope) (items : List Value) :
    (exportNames g s items).Tame R := by
  unfold exportNames
  grind

@[grind .] theorem tame_isStandardLibrary (v : Value) : (isStandardLibrary v).Tame R := by
  unfold isStandardLibrary
  grind

@[grind .] theorem tame_importInto (id : Nat) (vs : List Value) : (importInto id vs).Tame R := by
  induction vs with
  | nil => exact .pure ()
  | cons v rest ih =>
    unfold importInto
    grind

@[grind .] theorem tame_importModules (s : Scope) (items : List Value) :
    (importModules g s items).Tame R := by
  unfold importModules
  grind

theorem tame_includeFilesChecked (hg : g.Tame R) (hrespond : ∀ f f', respond f = .fault f' → R f')
    (id : Nat) (vs : List Value) : (includeFilesChecked respond g id vs).Tame R := by
  induction vs with
  | nil => exact .pure ()
  | cons v rest ih =>
    refine .bind (.checked hrespond fun m h => ?_) fun _ => ih
    unfold Machine.includeRefusal? at h
    unfold includeFiles
    cases hv : v.text? with
    | some path =>
      rw [hv] at h
      exact (hg.load _ (some id) h).bind fun _ => .pure ()
    | none => rw [hv] at h; cases h

theorem tame_declareChecked (hg : g.Tame R) (hrespond : ∀ f f', respond f = .fault f' → R f')
    (id : Nat) (v : Value) : (declareChecked respond g id v).Tame R := by
  have hinclude := tame_includeFilesChecked hg hrespond id
  unfold declareChecked declare
  split <;> grind

theorem tame_declareAllChecked (hg : g.Tame R) (hrespond : ∀ f f', respond f = .fault f' → R f')
    (id : Nat) (vs : List Value) : (declareAllChecked respond g id vs).Tame R := by
  induction vs with
  | nil => exact .pure ()
  | cons v rest ih => exact (tame_declareChecked hg hrespond id v).bind fun _ => ih

theorem tame_defineLibraryChecked (hg : g.Tame R) (hrespond : ∀ f f', respond f = .fault f' → R f')
    (s : Scope) (args : List Value) : (defineLibraryChecked respond g s args).Tame R := by
  have hdeclare := tame_declareAllChecked hg hrespond
  unfold defineLibraryChecked
  grind

end Modules

end Form

namespace Quasiquote

mutual

theorem tame_template (hg : g.Tame R) (s : Scope) : ∀ (level : Nat) (v : Value),
    (template g s level v).Tame R
  | level, .list tag [head, x] => by
    have hlower := tame_template hg s (level - 1) x
    have hraise := tame_template hg s (level + 1) x
    have hitems := tame_templates hg s level [head, x]
    unfold template
    grind
  | level, .list tag [] | level, .list tag [_] | level, .list tag (_ :: _ :: _ :: _) => by
    unfold template
    exact (tame_templates hg s level _).bind fun _ => .newList _
  | level, .vector tag items => by
    have hitems := tame_templates hg s level items
    unfold template
    grind
  | level, .improper tag items tail => by
    have hitems := tame_templates hg s level items
    have htail := tame_template hg s level tail
    unfold template
    grind
  | _, .bool _ | _, .int _ | _, .real _ _ | _, .str _ _ | _, .char _ | _, .sym _
  | _, .object _ _ => by
    unfold template
    exact .pure _

theorem tame_templates (hg : g.Tame R) (s : Scope) : ∀ (level : Nat) (vs : List Value),
    (templates g s level vs).Tame R
  | _, [] => by
    unfold templates
    exact .pure []
  | level, v :: rest => by
    have hv := tame_template hg s level v
    have hrest := tame_templates hg s level rest
    unfold templates
    grind

end

end Quasiquote

end LiveScheme
