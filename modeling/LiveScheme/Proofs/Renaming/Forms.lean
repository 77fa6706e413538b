import LiveScheme.Proofs.Machine.Forms
import LiveScheme.Proofs.Renaming.Engines

/-!
# Special forms under a renaming

Every special form of the renamed operands follows the form of the operands, when the engines
follow. Which form it is, and which of its cases applies, a renaming cannot change.
-/

namespace LiveScheme

open Renaming Comparison

variable {ρ : Comparison} {lax : Bool} {g g' : Engine}

namespace Form

theorem follows_arityError {α : Type} [Renames α] (f : SpecialForm) :
    ρ.Follows lax (arityError f : Run α) (arityError f) := .fail _

@[simp] theorem isTrue_on (v : Value) : isTrue (ρ.on v) = isTrue v := by
  simp [isTrue]

section Control

theorem follows_conditional (hg : g.Follows ρ lax g') (s : Scope) (args : List Value) :
    ρ.Follows lax (conditional g s args) (conditional g' s (ρ.on args)) := by
  rcases args with _ | ⟨test, _ | ⟨yes, _ | ⟨no, _ | ⟨other, rest⟩⟩⟩⟩
  · exact follows_arityError _
  · exact follows_arityError _
  · refine .bind (hg.eval test s) fun v => ?_
    rw [isTrue_on]
    exact .ite (.pure rfl) (.pure rfl)
  · refine .bind (hg.eval test s) fun v => ?_
    rw [isTrue_on]
    exact .ite (.pure rfl) (.pure rfl)
  · exact follows_arityError _

theorem follows_clauseBody (hg : g.Follows ρ lax g') (s : Scope) (v : Value)
    (forms : List Value) :
    ρ.Follows lax (clauseBody g s v forms) (clauseBody g' s (ρ.on v) (ρ.on forms)) := by
  cases forms with
  | nil => exact .pure rfl
  | cons first rest =>
    simp only [on_cons, clauseBody, Node.isSym_on]
    refine .ite ?_ (hg.body s (first :: rest))
    rcases rest with _ | ⟨receiver, _ | ⟨other, rest⟩⟩
    · exact .fail _
    · exact .bind (hg.eval receiver s) fun proc => .bind (hg.apply proc [v]) fun _ => .pure rfl
    · exact .fail _

theorem follows_cond (hg : g.Follows ρ lax g') (s : Scope) (clauses : List Value) :
    ρ.Follows lax (cond g s clauses) (cond g' s (ρ.on clauses)) := by
  induction clauses with
  | nil => exact .pure rfl
  | cons clause rest ih =>
    simp only [on_cons, cond, Node.elements?_on]
    rcases clause.elements? with _ | _ | ⟨test, forms⟩
    · exact .fail _
    · exact .fail _
    · simp only [on_some, on_cons, Node.isSym_on]
      refine .ite (hg.body s forms) (.bind (hg.eval test s) fun v => ?_)
      rw [isTrue_on]
      exact .ite (follows_clauseBody hg s v forms) ih

theorem clauseKeys_on (v : Value) : clauseKeys (ρ.on v) = ρ.on (clauseKeys v) := by
  have htexts : ∀ cs : List Char, ρ.on (cs.map fun c =>
      (Node.str .symbolName (String.singleton c) : Value)) =
        cs.map fun c => Node.str .symbolName (String.singleton c) := by
    intro cs
    induction cs with
    | nil => rfl
    | cons c rest ih => simp [ih]
  cases v with
  | str tag text => simp [clauseKeys, htexts]
  | object kind parts => cases kind <;> simp [clauseKeys, Value.kindWord]
  | _ => simp [clauseKeys, Value.kindWord]

theorem follows_caseClauses (hg : g.Follows ρ lax g') (s : Scope) (key : Value)
    (clauses : List Value) :
    ρ.Follows lax (caseClauses g s key clauses) (caseClauses g' s (ρ.on key) (ρ.on clauses)) := by
  have hany : ∀ keys : List Value, (ρ.on keys).any (ρ.on key).isEqv = keys.any key.isEqv := by
    intro keys
    induction keys with
    | nil => rfl
    | cons k rest ih => simp_all
  induction clauses with
  | nil => exact .pure rfl
  | cons clause rest ih =>
    simp only [on_cons, caseClauses, Node.elements?_on]
    rcases clause.elements? with _ | _ | ⟨data, forms⟩
    · exact .fail _
    · exact .fail _
    · simp only [on_some, on_cons, Node.isSym_on, clauseKeys_on]
      refine .ite (hg.body s forms) ?_
      cases clauseKeys data with
      | error f =>
        refine .bind (.faulty f) fun keys => ?_
        rw [hany]
        exact .ite (hg.body s forms) ih
      | ok keys =>
        refine .bind (.pure rfl) fun keys => ?_
        rw [hany]
        exact .ite (hg.body s forms) ih

theorem follows_case (hg : g.Follows ρ lax g') (s : Scope) (args : List Value) :
    ρ.Follows lax (case g s args) (case g' s (ρ.on args)) := by
  cases args with
  | nil => exact follows_arityError _
  | cons key clauses => exact .bind (hg.eval key s) fun v => follows_caseClauses hg s v clauses

theorem follows_and (hg : g.Follows ρ lax g') (s : Scope) (es : List Value) :
    ρ.Follows lax (and g s es) (and g' s (ρ.on es)) := by
  induction es with
  | nil => exact .pure rfl
  | cons e rest ih =>
    cases rest with
    | nil => exact .pure rfl
    | cons _ _ =>
      refine .bind (hg.eval e s) fun v => ?_
      rw [isTrue_on]
      exact .ite ih (.pure rfl)

theorem follows_or (hg : g.Follows ρ lax g') (s : Scope) (es : List Value) :
    ρ.Follows lax (or g s es) (or g' s (ρ.on es)) := by
  induction es with
  | nil => exact .pure rfl
  | cons e rest ih =>
    cases rest with
    | nil => exact .pure rfl
    | cons _ _ =>
      refine .bind (hg.eval e s) fun v => ?_
      rw [isTrue_on]
      exact .ite (.pure rfl) ih

theorem follows_whenTrue (hg : g.Follows ρ lax g') (s : Scope) (args : List Value) :
    ρ.Follows lax (whenTrue g s args) (whenTrue g' s (ρ.on args)) := by
  cases args with
  | nil => exact follows_arityError _
  | cons test forms =>
    refine .bind (hg.eval test s) fun v => ?_
    rw [isTrue_on]
    exact .ite (hg.body s forms) (.pure rfl)

theorem follows_unlessTrue (hg : g.Follows ρ lax g') (s : Scope) (args : List Value) :
    ρ.Follows lax (unlessTrue g s args) (unlessTrue g' s (ρ.on args)) := by
  cases args with
  | nil => exact follows_arityError _
  | cons test forms =>
    refine .bind (hg.eval test s) fun v => ?_
    rw [isTrue_on]
    exact .ite (.pure rfl) (hg.body s forms)

end Control

section Binding

theorem follows_letBinding (v : Value) :
    ρ.Follows lax (letBinding v) (letBinding (ρ.on v)) := by
  cases v with
  | sym name => exact .pure rfl
  | list tag items | vector tag items =>
    simp only [on_list, on_vector]
    rcases items with _ | ⟨head, _ | ⟨init, _ | ⟨other, rest⟩⟩⟩
    · exact .fail _
    · cases head <;> first | exact .fail _ | exact .pure rfl
    · cases head <;> first | exact .fail _ | exact .pure rfl
    · cases head <;> exact .fail _
  | _ => exact .fail _

theorem follows_letBindingsOf (vs : List Value) :
    ρ.Follows lax (letBindingsOf vs) (letBindingsOf (ρ.on vs)) := by
  induction vs with
  | nil => exact .pure rfl
  | cons v rest ih => exact .bind (follows_letBinding v) fun _ => .bind ih fun _ => .pure rfl

theorem follows_letBindings (v : Value) :
    ρ.Follows lax (letBindings v) (letBindings (ρ.on v)) := by
  unfold letBindings
  rw [Node.elements?_on]
  cases v.elements? with
  | none => exact .fail _
  | some items => exact follows_letBindingsOf items

theorem follows_initial (hg : g.Follows ρ lax g') (s : Scope) (b : LetBinding) :
    ρ.Follows lax (initial g s b) (initial g' s (ρ.on b)) := by
  obtain ⟨name, init⟩ := b
  cases init with
  | none => exact .pure rfl
  | some e => exact hg.eval e s

theorem follows_initials (hg : g.Follows ρ lax g') (s : Scope) (bs : List LetBinding) :
    ρ.Follows lax (initials g s bs) (initials g' s (ρ.on bs)) := by
  induction bs with
  | nil => exact .pure rfl
  | cons b rest ih => exact .bind (follows_initial hg s b) fun _ => .bind ih fun _ => .pure rfl

theorem tableOf_on (bindings : List LetBinding) (values : List Value) :
    tableOf (ρ.on bindings) (ρ.on values) = ρ.on (tableOf bindings values) := by
  have hfold : ∀ (bindings : List LetBinding) (values : List Value) (table : Table Value),
      ((ρ.on bindings).zip (ρ.on values)).foldl
          (fun table entry => table.put entry.1.name entry.2) (ρ.on table) =
        ρ.on ((bindings.zip values).foldl
          (fun table entry => table.put entry.1.name entry.2) table) := by
    intro bindings
    induction bindings with
    | nil => exact fun _ _ => rfl
    | cons b rest ih =>
      intro values table
      cases values with
      | nil => rfl
      | cons v values =>
        simp only [on_cons, List.zip_cons_cons, List.foldl_cons, ← ih]
        rw [← Table.put_on]
        rfl
  exact hfold bindings values []

theorem follows_quoteAll (vs : List Value) :
    ρ.Follows lax (quoteAll vs) (quoteAll (ρ.on vs)) := by
  induction vs with
  | nil => exact .pure rfl
  | cons v rest ih =>
    exact .bind (keeps_newList [.sym "quote", v]) fun _ => .bind ih fun _ => .pure rfl

theorem names_on (bs : List LetBinding) :
    (ρ.on bs).map (fun b => (Node.sym b.name : Value)) = ρ.on (bs.map fun b => .sym b.name) := by
  induction bs with
  | nil => rfl
  | cons b rest ih => simp_all [Renaming.on, Renames.rename, Renaming.value]

theorem follows_namedLet (hg : g.Follows ρ lax g') (s : Scope) (name : String) (bindings : Value)
    (forms : List Value) :
    ρ.Follows lax (namedLet g s name bindings forms)
      (namedLet g' s name (ρ.on bindings) (ρ.on forms)) := by
  refine .bind (follows_letBindings bindings) fun bs => ?_
  refine .bind (keeps_newFrame []) fun frame => ?_
  simp only [names_on, on_fixed]
  refine .bind (keeps_newList _) fun formals => ?_
  refine .bind (Closure.follows_make formals forms _ _) fun proc => ?_
  refine .bind (keeps_define name proc _) fun _ => ?_
  refine .bind (follows_initials hg s bs) fun values => ?_
  refine .bind (follows_quoteAll values) fun args => ?_
  exact .bind (keeps_newList (proc :: args)) fun _ => .pure rfl

theorem follows_letPlain (hg : g.Follows ρ lax g') (s : Scope) (args : List Value) :
    ρ.Follows lax (letPlain g s args) (letPlain g' s (ρ.on args)) := by
  have hframe : ∀ (bindings : Value) (forms : List Value), ρ.Follows lax
      (do
        let bindings ← letBindings bindings
        let values ← initials g s bindings
        let frame ← Run.newFrame (tableOf bindings values)
        g.body (s.inner frame) forms)
      (do
        let bindings ← letBindings (ρ.on bindings)
        let values ← initials g' s bindings
        let frame ← Run.newFrame (tableOf bindings values)
        g'.body (s.inner frame) (ρ.on forms)) := by
    intro bindings forms
    refine .bind (follows_letBindings bindings) fun bs => ?_
    refine .bind (follows_initials hg s bs) fun values => ?_
    rw [tableOf_on]
    exact .bind (keeps_newFrame _) fun frame => hg.body _ forms
  rcases args with _ | ⟨bindings, _ | ⟨form, forms⟩⟩
  · exact follows_arityError _
  · cases bindings <;> exact follows_arityError _
  · cases bindings with
    | sym name => exact follows_namedLet hg s name form forms
    | list tag items =>
      simp only [on_cons, on_list]
      exact on_list (ρ := ρ.toRenaming) tag items ▸ hframe (.list tag items) (form :: forms)
    | _ => exact hframe _ (form :: forms)

theorem follows_nest (hg : g.Follows ρ lax g') (s : Scope) (bs : List LetBinding) :
    ρ.Follows lax (nest g s bs) (nest g' s (ρ.on bs)) := by
  induction bs generalizing s with
  | nil => exact .pure rfl
  | cons b rest ih =>
    exact .bind (follows_initial hg s b) fun v => .bind (keeps_newFrame [(b.name, v)]) fun frame =>
      ih _

theorem follows_letStar (hg : g.Follows ρ lax g') (s : Scope) (args : List Value) :
    ρ.Follows lax (letStar g s args) (letStar g' s (ρ.on args)) := by
  rcases args with _ | ⟨bindings, _ | ⟨form, forms⟩⟩
  · exact follows_arityError _
  · exact follows_arityError _
  · exact .bind (follows_letBindings bindings) fun bs => .bind (follows_nest hg s bs) fun s =>
      .bind (keeps_newFrame []) fun frame => hg.body _ (form :: forms)

theorem follows_fill (hg : g.Follows ρ lax g') (s : Scope) (bs : List LetBinding) :
    ρ.Follows lax (fill g s bs) (fill g' s (ρ.on bs)) := by
  induction bs with
  | nil => exact .pure rfl
  | cons b rest ih =>
    exact .bind (follows_initial hg s b) fun v => .bind (keeps_nameClosure v b.name) fun _ =>
      .bind (keeps_define b.name v s) fun _ => ih

theorem follows_letrec (hg : g.Follows ρ lax g') (s : Scope) (args : List Value) :
    ρ.Follows lax (letrec g s args) (letrec g' s (ρ.on args)) := by
  have hvoid : ∀ bs : List LetBinding, (ρ.on bs).map (fun _ => (.void : Value)) =
      ρ.on (bs.map fun _ => .void) := fun bs => by
    induction bs with
    | nil => rfl
    | cons b rest ih => rw [on_cons, List.map_cons, ih]; rfl
  rcases args with _ | ⟨bindings, _ | ⟨form, forms⟩⟩
  · exact follows_arityError _
  · exact follows_arityError _
  · refine .bind (follows_letBindings bindings) fun bs => ?_
    rw [hvoid, tableOf_on]
    exact .bind (keeps_newFrame _) fun frame => .bind (follows_fill hg _ bs) fun _ =>
      hg.body _ (form :: forms)

end Binding

section Definition

theorem follows_splitHead (spec : Value) :
    ρ.Follows lax (splitHead spec) (splitHead (ρ.on spec)) := by
  cases spec with
  | list tag items | vector tag items =>
    simp only [on_list, on_vector]
    cases items with
    | nil => exact .faulty _
    | cons head params => exact .bind (keeps_newList params) fun _ => .pure rfl
  | improper tag items tail =>
    simp only [on_improper]
    rcases items with _ | ⟨head, _ | ⟨param, params⟩⟩
    · exact .faulty _
    · exact .pure rfl
    · exact .bind (keeps_newImproper (param :: params) tail) fun _ => .pure rfl
  | str tag text => exact .ite (.faulty _) (.faulty _)
  | object kind parts =>
    have hword := Value.kindWord_on (ρ := ρ.toRenaming) (.object kind parts)
    rw [on_object] at hword ⊢
    simp only [splitHead, hword]
    exact .faulty _
  | _ => exact .faulty _

@[simp] theorem headDepth_on : ∀ v : Value, headDepth (ρ.on v) = headDepth v
  | .list _ [] | .vector _ [] | .improper _ [] _ => by simp [headDepth]
  | .list _ (head :: _) | .vector _ (head :: _) | .improper _ (head :: _) _ => by
    simp [headDepth, headDepth_on head]
  | .bool _ | .int _ | .real _ _ | .str _ _ | .char _ | .sym _ | .object _ _ => by
    simp [headDepth]

@[simp] theorem isHead_on (v : Value) : isHead (ρ.on v) = isHead v := by
  cases v <;> simp [isHead]

theorem follows_defineProcedure (s : Scope) (depth : Nat) (spec : Value) (forms : List Value) :
    ρ.Follows lax (defineProcedure s depth spec forms)
      (defineProcedure s depth (ρ.on spec) (ρ.on forms)) := by
  induction depth generalizing spec forms with
  | zero => exact .fail _
  | succ depth ih =>
    unfold defineProcedure
    rw [isHead_on, isEmpty_on]
    refine .ite (.fail _) (.ite (.fail _) (.bind (follows_splitHead spec) fun headed => ?_))
    obtain ⟨head, formals⟩ := headed
    have hnested : ∀ head : Value, ρ.Follows lax
        (do
          let inner ← Run.newList (.sym "lambda" :: formals :: forms)
          defineProcedure s depth head [inner])
        (do
          let inner ← Run.newList (.sym "lambda" :: ρ.on formals :: ρ.on forms)
          defineProcedure s depth (ρ.on head) [inner]) :=
      fun head => .bind (keeps_newList (.sym "lambda" :: formals :: forms)) fun inner =>
        ih head [inner]
    cases head with
    | sym name =>
      exact .bind (Closure.follows_make formals forms s (some name)) fun proc =>
        keeps_define name proc s
    | _ => exact hnested _

theorem follows_define (hg : g.Follows ρ lax g') (s : Scope) (args : List Value) :
    ρ.Follows lax (define g s args) (define g' s (ρ.on args)) := by
  have hprocedure : ∀ (spec : Value) (forms : List Value), ρ.Follows lax
      (do
        defineProcedure s (headDepth spec + 1) spec forms
        return Step.done .void)
      (do
        defineProcedure s (headDepth (ρ.on spec) + 1) (ρ.on spec) (ρ.on forms)
        return Step.done .void) := fun spec forms => by
    rw [headDepth_on]
    exact .bind (follows_defineProcedure s _ spec forms) fun _ => .pure rfl
  cases args with
  | nil => exact follows_arityError _
  | cons spec forms =>
    cases spec with
    | sym name =>
      rcases forms with _ | ⟨e, _ | ⟨other, rest⟩⟩
      · exact .bind (keeps_define name .void s) fun _ => .pure rfl
      · refine .bind (hg.eval e s) fun v => .bind (keeps_nameClosure v name) fun _ => ?_
        exact .bind (keeps_define name v s) fun _ => .pure rfl
      · exact .bind (.fail _) fun _ => .pure rfl
    | _ => exact hprocedure _ forms

theorem follows_assign (hg : g.Follows ρ lax g') (s : Scope) (args : List Value) :
    ρ.Follows lax (assign g s args) (assign g' s (ρ.on args)) := by
  rcases args with _ | ⟨target, _ | ⟨e, _ | ⟨other, rest⟩⟩⟩
  · exact follows_arityError _
  · cases target <;> exact follows_arityError _
  · cases target with
    | sym name =>
      exact .bind (hg.eval e s) fun v => .bind (keeps_assign name v s) fun _ => .pure rfl
    | _ => exact follows_arityError _
  · cases target <;> exact follows_arityError _

theorem follows_defineExpander (name : String) (transformer : Value) (s : Scope) :
    ρ.Follows lax (defineExpander name transformer s)
      (defineExpander name (ρ.on transformer) s) := by
  cases transformer with
  | object kind parts =>
    cases kind <;> cases parts <;> first
      | exact .fail _
      | exact .bind keeps_newTag fun tag =>
          .bind (keeps_defineKeyword name (.expander tag name _) s.home) fun _ => .pure rfl
  | _ => exact .fail _

theorem follows_defineMacro (hg : g.Follows ρ lax g') (s : Scope) (args : List Value) :
    ρ.Follows lax (defineMacro g s args) (defineMacro g' s (ρ.on args)) := by
  rcases args with _ | ⟨spec, _ | ⟨e, forms⟩⟩
  · exact follows_arityError _
  · cases spec <;> exact follows_arityError _
  · cases spec with
    | sym name => exact .bind (hg.eval e s) fun v => follows_defineExpander name v s
    | _ =>
      refine .bind (follows_splitHead _) fun headed => ?_
      obtain ⟨head, formals⟩ := headed
      cases head with
      | sym name =>
        exact .bind (Closure.follows_make formals (e :: forms) s (some name)) fun proc =>
          follows_defineExpander name proc s
      | _ => exact .faulty _

end Definition

section Modules

theorem follows_symbolNames (who : String) (vs : List Value) :
    ρ.Follows lax (symbolNames who vs) (symbolNames who (ρ.on vs)) := by
  have hbad : ∀ v : Value, ρ.Follows lax
      (do Run.fail (.badName who (← Run.described v)) : Run (List String))
      (do Run.fail (.badName who (← Run.described (ρ.on v)))) :=
    fun v => .bind (keeps_described v) fun _ => .fail _
  induction vs with
  | nil => exact .pure rfl
  | cons v rest ih =>
    cases v with
    | sym name => exact .bind ih fun _ => .pure rfl
    | _ => exact hbad _

theorem follows_runIn (hg : g.Follows ρ lax g') (id : Nat) (forms : List Value) :
    ρ.Follows lax (runIn g id forms) (runIn g' id (ρ.on forms)) :=
  follows_within id (hg.runAll _ forms)

theorem follows_defineModule (hg : g.Follows ρ lax g') (s : Scope) (args : List Value) :
    ρ.Follows lax (defineModule g s args) (defineModule g' s (ρ.on args)) := by
  cases args with
  | nil => exact follows_arityError _
  | cons name forms =>
    exact .bind (keeps_moduleName name) fun name => .bind (keeps_makeModule name) fun id =>
      .bind (follows_runIn hg id forms) fun _ => .pure rfl

theorem follows_selectModule (g g' : Engine) (s : Scope) (args : List Value) :
    ρ.Follows lax (selectModule g s args) (selectModule g' s (ρ.on args)) := by
  rcases args with _ | ⟨v, _ | ⟨other, rest⟩⟩
  · exact follows_arityError _
  · refine .bind (keeps_moduleName v) fun name => ⟨fun m => ?_, fun {m m'} hm _ => ?_⟩
    · rw [Run.after, Run.get_bind]
      cases h : m.findModule? name with
      | some id => exact .selectModule m name id h
      | none => exact .refl m
    · rw [on_fixed, Run.get_bind, Run.get_bind, hm.findModule?]
      cases m.findModule? name with
      | some id => exact .ok (hm.select id)
      | none => exact .error hm
  · exact follows_arityError _

theorem follows_exportNames (g g' : Engine) (s : Scope) (items : List Value) :
    ρ.Follows lax (exportNames g s items) (exportNames g' s (ρ.on items)) :=
  .bind (follows_symbolNames "export" items) fun names => by
    rw [on_fixed]
    exact .bind (keeps_exportNames s.home names) fun _ => .pure rfl

theorem follows_isStandardLibrary (v : Value) :
    ρ.Follows lax (isStandardLibrary v) (isStandardLibrary (ρ.on v)) := by
  unfold isStandardLibrary
  rw [Node.elements?_on]
  rcases v.elements? with _ | _ | ⟨root, rest⟩
  · exact .pure rfl
  · exact .pure rfl
  · exact .bind (keeps_label root) fun _ => .pure rfl

theorem follows_importInto (id : Nat) (vs : List Value) :
    ρ.Follows lax (importInto id vs) (importInto id (ρ.on vs)) := by
  induction vs with
  | nil => exact .pure rfl
  | cons v rest ih =>
    refine .bind (keeps_moduleName v) fun name => .get ?_ fun m m' hm => ?_
    · have hrest := ih.moves.tame
      exact Run.Tame.moves (R := fun _ => True) (by grind)
    · rw [on_fixed, hm.findModule?]
      cases m.findModule? name with
      | some other => exact .bind (keeps_importModule id other) fun _ => ih
      | none =>
        refine .bind (follows_isStandardLibrary v) fun standard => ?_
        exact .ite ih (.bind (.fail _) fun _ => ih)

theorem follows_importModules (g g' : Engine) (s : Scope) (items : List Value) :
    ρ.Follows lax (importModules g s items) (importModules g' s (ρ.on items)) :=
  .bind (follows_importInto s.home items) fun _ => .pure rfl

theorem follows_includeFiles (hg : g.Follows ρ lax g') (id : Nat) (vs : List Value) :
    ρ.Follows lax (includeFiles g id vs) (includeFiles g' id (ρ.on vs)) := by
  induction vs with
  | nil => exact .pure rfl
  | cons v rest ih =>
    simp only [on_cons, includeFiles, Node.text?_on]
    cases v.text? with
    | some path => exact .bind (hg.load _ _) fun _ => ih
    | none => exact .bind (.faulty _) fun _ => ih

theorem follows_declare (hg : g.Follows ρ lax g') (id : Nat) (v : Value) :
    ρ.Follows lax (declare g id v) (declare g' id (ρ.on v)) := by
  unfold declare
  rw [Node.elements?_on]
  rcases v.elements? with _ | _ | ⟨kind, items⟩
  · exact .fail _
  · exact .fail _
  · simp only [on_some, on_cons, Node.isSym_on]
    refine .ite (.bind (follows_symbolNames "export" items) fun names => ?_) (.ite ?_ (.ite ?_ ?_))
    · rw [on_fixed]
      exact keeps_exportNames id names
    · exact follows_importInto id items
    · exact follows_runIn hg id items
    · exact .ite (follows_includeFiles hg id items) (.bind (keeps_label kind) fun _ => .fail _)

theorem follows_declareAll (hg : g.Follows ρ lax g') (id : Nat) (vs : List Value) :
    ρ.Follows lax (declareAll g id vs) (declareAll g' id (ρ.on vs)) := by
  induction vs with
  | nil => exact .pure rfl
  | cons v rest ih => exact .bind (follows_declare hg id v) fun _ => ih

theorem follows_defineLibrary (hg : g.Follows ρ lax g') (s : Scope) (args : List Value) :
    ρ.Follows lax (defineLibrary g s args) (defineLibrary g' s (ρ.on args)) := by
  cases args with
  | nil => exact follows_arityError _
  | cons name declarations =>
    exact .bind (keeps_moduleName name) fun name => .bind (keeps_makeModule name) fun id =>
      .bind (follows_declareAll hg id declarations) fun _ => .pure rfl

end Modules

end Form

namespace Quasiquote

theorem operand?_on (tag : String) (v : Value) : operand? tag (ρ.on v) = ρ.on (operand? tag v) := by
  cases v with
  | list _ items =>
    rcases items with _ | ⟨head, _ | ⟨x, _ | ⟨other, rest⟩⟩⟩
    · simp [operand?]
    · simp [operand?]
    · simp only [on_list, on_cons, on_nil, operand?, Node.isSym_on]
      split <;> rfl
    · simp [operand?]
  | _ => simp [operand?]

mutual

theorem renamed_template (hg : g.Follows ρ lax g') (s : Scope) : ∀ (level : Nat) (v : Value),
    ρ.Follows lax (template g s level v) (template g' s level (ρ.on v))
  | level, .list tag [head, x] => by
    have hlower := renamed_template hg s (level - 1) x
    have hraise := renamed_template hg s (level + 1) x
    have hitems := renamed_templates hg s level [head, x]
    simp only [on_list, on_cons, on_nil, template, Node.isSym_on] at hitems ⊢
    refine .ite (.ite (hg.eval x s) (.bind hlower fun v => ?_)) (.ite (.bind hraise fun v => ?_) ?_)
    · exact keeps_newList [.sym "unquote", v]
    · exact keeps_newList [.sym "quasiquote", v]
    · exact .bind hitems fun items => keeps_newList items
  | level, .list tag [] | level, .list tag [_] | level, .list tag (_ :: _ :: _ :: _) => by
    rw [on_list]
    unfold template
    exact .bind (renamed_templates hg s level _) fun items => keeps_newList items
  | level, .vector tag items => by
    rw [on_vector]
    unfold template
    exact .bind (renamed_templates hg s level items) fun items => keeps_newVector items
  | level, .improper tag items tail => by
    rw [on_improper]
    unfold template
    refine .bind (renamed_templates hg s level items) fun expanded => ?_
    refine .bind (renamed_template hg s level tail) fun rest => ?_
    cases rest with
    | list tag more | vector tag more =>
      simp only [on_list, on_vector]
      exact on_append (ρ := ρ.toRenaming) expanded more ▸ keeps_newList (expanded ++ more)
    | _ => exact keeps_newImproper expanded _
  | _, .bool _ | _, .int _ | _, .real _ _ | _, .str _ _ | _, .char _ | _, .sym _
  | _, .object _ _ => by
    unfold template
    exact .pure rfl

theorem renamed_templates (hg : g.Follows ρ lax g') (s : Scope) : ∀ (level : Nat) (vs : List Value),
    ρ.Follows lax (templates g s level vs) (templates g' s level (ρ.on vs))
  | _, [] => by
    unfold templates
    exact .pure rfl
  | level, v :: rest => by
    have hv := renamed_template hg s level v
    have hrest := renamed_templates hg s level rest
    have hoperand : (if level = 1 then operand? "unquote-splicing" (ρ.on v) else none) =
        ρ.on (if level = 1 then operand? "unquote-splicing" v else none) := by
      split <;> simp [operand?_on]
    rw [on_cons]
    unfold templates
    rw [hoperand]
    have hjoin : ∀ here : List Value, ρ.Follows lax
        (do return here ++ (← templates g s level rest))
        (do return ρ.on here ++ (← templates g' s level (ρ.on rest))) :=
      fun here => .bind hrest fun more => .pure (on_append here more).symm
    cases (if level = 1 then operand? "unquote-splicing" v else none) with
    | none => exact .bind hv fun v => .bind (.pure rfl) fun here => hjoin here
    | some x =>
      refine .bind (hg.eval x s) fun spliced => ?_
      rw [Node.elements?_on]
      cases spliced.elements? with
      | none => exact .bind (.fail _) fun here => hjoin here
      | some items => exact .bind (.pure rfl) fun here => hjoin here

end

end Quasiquote

end LiveScheme
