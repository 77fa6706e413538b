import LiveScheme.Proofs.Mirror.Engines

/-!
# Special forms on mirroring engines

Every special form mirrors itself when its engines mirror each other. Templates are the exception:
while one is being filled in its pairs may be loose, so its answer lives up to the draft of the
standard only.
-/

set_option linter.unusedSectionVars false

namespace LiveScheme

open Link

variable {L : Link} [L.Lawful] {g g' : Engine}

namespace Form

section Control

@[grind .] theorem keeps_arityError {α : Type} [Checkable α] (f : SpecialForm) :
    L.Keeps (arityError f : Run α) := .fail _

theorem mirrors_conditional (hg : g.Mirrors L g') (s : Scope) {args : List Value}
    (hargs : Meets L.standard args) : L.Mirrors (conditional g s args) (conditional g' s args) := by
  unfold conditional
  split <;> grind

@[grind ←] theorem mirrors_clauseBody (hg : g.Mirrors L g') (s : Scope) {v : Value}
    {forms : List Value} (hv : Meets L.standard v) (hforms : Meets L.standard forms) :
    L.Mirrors (clauseBody g s v forms) (clauseBody g' s v forms) := by
  unfold clauseBody
  split
  · grind
  split
  · split <;> grind
  · grind

theorem mirrors_cond (hg : g.Mirrors L g') (s : Scope) {clauses : List Value}
    (hclauses : Meets L.standard clauses) :
    L.Mirrors (cond g s clauses) (cond g' s clauses) := by
  induction clauses with
  | nil => exact .pure meets_void
  | cons clause rest ih =>
    obtain ⟨hclause, hrest⟩ := meets_cons.mp hclauses
    have hparts := meets_elements? hclause
    unfold cond
    split <;> grind

theorem meets_clauseKeys {S : Standard} {v : Value} {keys : List Value} (hv : Meets S v)
    (h : clauseKeys v = .ok keys) : Meets S keys := by
  unfold clauseKeys at h
  split at h
  · cases h
    exact meets_list.mp hv
  · cases h
    exact meets_vector.mp hv
  · cases h
    intro c hc
    obtain ⟨d, -, rfl⟩ := List.mem_map.mp hc
    rfl
  · cases h
    exact meets_cons.mpr ⟨rfl, meets_nil.mpr trivial⟩
  · cases h
    obtain ⟨-, hitems, htail⟩ := meets_improper.mp hv
    exact meets_cons.mpr ⟨meets_list.mpr hitems, meets_cons.mpr ⟨htail, meets_nil.mpr trivial⟩⟩
  · cases h

@[grind ←] theorem mirrors_caseClauses (hg : g.Mirrors L g') (s : Scope) (key : Value)
    {clauses : List Value} (hclauses : Meets L.standard clauses) :
    L.Mirrors (caseClauses g s key clauses) (caseClauses g' s key clauses) := by
  induction clauses with
  | nil => exact .pure meets_void
  | cons clause rest ih =>
    obtain ⟨hclause, hrest⟩ := meets_cons.mp hclauses
    have hparts := meets_elements? hclause
    unfold caseClauses
    split
    · next data forms heq =>
      rw [heq] at hparts
      obtain ⟨hdata, hforms⟩ := meets_cons.mp (meets_some.mp hparts)
      refine .ite (hg.body s hforms) (.bind (keeps_ofFault fun keys h => ?_) fun keys _ => ?_)
      · exact meets_clauseKeys hdata h
      · exact .ite (hg.body s hforms) (ih hrest)
    · exact .fail _

theorem mirrors_case (hg : g.Mirrors L g') (s : Scope) {args : List Value}
    (hargs : Meets L.standard args) : L.Mirrors (case g s args) (case g' s args) := by
  unfold case
  split <;> grind

theorem mirrors_and (hg : g.Mirrors L g') (s : Scope) {es : List Value}
    (hes : Meets L.standard es) : L.Mirrors (and g s es) (and g' s es) := by
  fun_induction and g s es with
  | case1 => exact .pure (meets_bool _)
  | case2 last => exact .pure (meets_cons.mp hes).1
  | case3 e rest hne ih =>
    obtain ⟨he, hrest⟩ := meets_cons.mp hes
    rw [and]
    · exact .bind (hg.eval he s) fun v _ => .ite (ih hrest) (.pure (meets_bool _))
    · exact hne

theorem mirrors_or (hg : g.Mirrors L g') (s : Scope) {es : List Value}
    (hes : Meets L.standard es) : L.Mirrors (or g s es) (or g' s es) := by
  fun_induction or g s es with
  | case1 => exact .pure (meets_bool _)
  | case2 last => exact .pure (meets_cons.mp hes).1
  | case3 e rest hne ih =>
    obtain ⟨he, hrest⟩ := meets_cons.mp hes
    rw [or]
    · exact .bind (hg.eval he s) fun v hv => .ite (.pure hv) (ih hrest)
    · exact hne

theorem mirrors_whenTrue (hg : g.Mirrors L g') (s : Scope) {args : List Value}
    (hargs : Meets L.standard args) : L.Mirrors (whenTrue g s args) (whenTrue g' s args) := by
  unfold whenTrue
  split <;> grind

theorem mirrors_unlessTrue (hg : g.Mirrors L g') (s : Scope) {args : List Value}
    (hargs : Meets L.standard args) : L.Mirrors (unlessTrue g s args) (unlessTrue g' s args) := by
  unfold unlessTrue
  split <;> grind

end Control

section Binding

@[grind ←] theorem keeps_letBinding {v : Value} (hv : Meets L.standard v) :
    L.Keeps (letBinding v) := by
  have hparts := meets_elements? hv
  unfold letBinding
  grind

theorem keeps_letBindingsOf {vs : List Value} (hvs : Meets L.standard vs) :
    L.Keeps (letBindingsOf vs) := by
  induction vs with
  | nil => exact .pure (meets_nil.mpr trivial)
  | cons v rest ih =>
    obtain ⟨hv, hrest⟩ := meets_cons.mp hvs
    exact .bind (keeps_letBinding hv) fun _ hb => .bind (ih hrest) fun _ hbs =>
      .pure (meets_cons.mpr ⟨hb, hbs⟩)

@[grind ←] theorem keeps_letBindings {v : Value} (hv : Meets L.standard v) :
    L.Keeps (letBindings v) := by
  have hparts := meets_elements? hv
  unfold letBindings
  split
  · next items h =>
    rw [h] at hparts
    exact keeps_letBindingsOf (meets_some.mp hparts)
  · exact .fail _

theorem mirrors_initial (hg : g.Mirrors L g') (s : Scope) {b : LetBinding}
    (hb : Meets L.standard b) : L.Mirrors (initial g s b) (initial g' s b) := by
  obtain ⟨name, init⟩ := b
  cases init with
  | some e => exact hg.eval (meets_some.mp (meets_letBinding.mp hb)) s
  | none => exact .pure meets_void

@[grind ←] theorem mirrors_initials (hg : g.Mirrors L g') (s : Scope) {bs : List LetBinding}
    (hbs : Meets L.standard bs) : L.Mirrors (initials g s bs) (initials g' s bs) := by
  induction bs with
  | nil => exact .pure (meets_nil.mpr trivial)
  | cons b rest ih =>
    obtain ⟨hb, hrest⟩ := meets_cons.mp hbs
    exact .bind (mirrors_initial hg s hb) fun _ hv => .bind (ih hrest) fun _ hvs =>
      .pure (meets_cons.mpr ⟨hv, hvs⟩)

@[grind ←] theorem meets_tableOf {S : Standard} (bindings : List LetBinding) {values : List Value}
    (hvalues : Meets S values) : Meets S (tableOf bindings values) := by
  have hfold : ∀ (entries : List (LetBinding × Value)) (table : Table Value),
      (∀ entry ∈ entries, Meets S entry.2) → Meets S table →
        Meets S (entries.foldl (fun table entry => table.put entry.1.name entry.2) table) := by
    intro entries
    induction entries with
    | nil => exact fun _ _ htable => htable
    | cons entry rest ih =>
      intro table hentries htable
      obtain ⟨hentry, hrest⟩ := List.forall_mem_cons.mp hentries
      exact ih _ hrest (Closure.meets_put htable hentry)
  refine hfold _ [] (fun entry hentry => ?_) (meets_nil.mpr trivial)
  exact hvalues _ (List.of_mem_zip hentry).2

theorem keeps_quoteAll {vs : List Value} (hvs : Meets L.standard vs) : L.Keeps (quoteAll vs) := by
  induction vs with
  | nil => exact .pure (meets_nil.mpr trivial)
  | cons v rest ih =>
    obtain ⟨hv, hrest⟩ := meets_cons.mp hvs
    refine .bind (keeps_newList ?_) fun _ hquoted => .bind (ih hrest) fun _ hrest =>
      .pure (meets_cons.mpr ⟨hquoted, hrest⟩)
    exact meets_cons.mpr ⟨meets_sym _, meets_cons.mpr ⟨hv, meets_nil.mpr trivial⟩⟩

@[grind ←] theorem mirrors_namedLet (hg : g.Mirrors L g') (s : Scope) (name : String)
    {bindings : Value} {forms : List Value} (hbindings : Meets L.standard bindings)
    (hforms : Meets L.standard forms) :
    L.Mirrors (namedLet g s name bindings forms) (namedLet g' s name bindings forms) := by
  refine .bind (keeps_letBindings hbindings) fun bs hbs => ?_
  refine .bind (Lawful.newFrame _ (meets_nil.mpr trivial)) fun frame _ => ?_
  have hnames : Meets L.standard (bs.map fun b => (Node.sym b.name : Value)) := by
    intro v hv
    obtain ⟨b, -, rfl⟩ := List.mem_map.mp hv
    exact meets_sym _
  refine .bind (keeps_newList hnames) fun formals hformals => ?_
  refine .bind (Closure.keeps_make hformals hforms _ _) fun proc hproc => ?_
  refine .bind (Lawful.define _ _ _ hproc) fun _ _ => ?_
  refine .bind (mirrors_initials hg s hbs) fun values hvalues => ?_
  refine .bind (keeps_quoteAll hvalues) fun args hargs => ?_
  exact .bind (keeps_newList (meets_cons.mpr ⟨hproc, hargs⟩)) fun _ hcall => .pure hcall

theorem mirrors_letPlain (hg : g.Mirrors L g') (s : Scope) {args : List Value}
    (hargs : Meets L.standard args) : L.Mirrors (letPlain g s args) (letPlain g' s args) := by
  unfold letPlain
  split <;> grind

@[grind ←] theorem mirrors_nest (hg : g.Mirrors L g') (s : Scope) {bs : List LetBinding}
    (hbs : Meets L.standard bs) : L.Mirrors (nest g s bs) (nest g' s bs) := by
  induction bs generalizing s with
  | nil => exact .pure trivial
  | cons b rest ih =>
    obtain ⟨hb, hrest⟩ := meets_cons.mp hbs
    refine .bind (mirrors_initial hg s hb) fun v hv => ?_
    refine .bind (Lawful.newFrame _ ?_) fun frame _ => ih _ hrest
    exact meets_cons.mpr ⟨⟨trivial, hv⟩, meets_nil.mpr trivial⟩

theorem mirrors_letStar (hg : g.Mirrors L g') (s : Scope) {args : List Value}
    (hargs : Meets L.standard args) : L.Mirrors (letStar g s args) (letStar g' s args) := by
  unfold letStar
  split <;> grind

@[grind ←] theorem mirrors_fill (hg : g.Mirrors L g') (s : Scope) {bs : List LetBinding}
    (hbs : Meets L.standard bs) : L.Mirrors (fill g s bs) (fill g' s bs) := by
  induction bs with
  | nil => exact .pure trivial
  | cons b rest ih =>
    obtain ⟨hb, hrest⟩ := meets_cons.mp hbs
    exact .bind (mirrors_initial hg s hb) fun v hv => .bind (Lawful.nameClosure v b.name) fun _ _ =>
      .bind (Lawful.define b.name v s hv) fun _ _ => ih hrest

theorem mirrors_letrec (hg : g.Mirrors L g') (s : Scope) {args : List Value}
    (hargs : Meets L.standard args) : L.Mirrors (letrec g s args) (letrec g' s args) := by
  have hvoids : ∀ bs : List LetBinding, Meets L.standard (bs.map fun _ => Value.void) := by
    intro bs v hv
    obtain ⟨b, -, rfl⟩ := List.mem_map.mp hv
    exact meets_void
  unfold letrec
  split <;> grind

end Binding

section Definition

@[grind ←] theorem keeps_splitHead {spec : Value} (hspec : Meets L.standard spec) :
    L.Keeps (splitHead spec) := by
  unfold splitHead
  split
  · next head params =>
    obtain ⟨hhead, hparams⟩ := meets_cons.mp (meets_list.mp hspec)
    exact .bind (keeps_newList hparams) fun _ h => .pure ⟨hhead, h⟩
  · next head params =>
    obtain ⟨hhead, hparams⟩ := meets_cons.mp (meets_vector.mp hspec)
    exact .bind (keeps_newList hparams) fun _ h => .pure ⟨hhead, h⟩
  · next head tail =>
    obtain ⟨-, hitems, htail⟩ := meets_improper.mp hspec
    exact .pure ⟨(meets_cons.mp hitems).1, htail⟩
  · next head params tail hne =>
    obtain ⟨hpair, hitems, htail⟩ := meets_improper.mp hspec
    obtain ⟨hhead, hparams⟩ := meets_cons.mp hitems
    refine .bind (keeps_newImproper fun t => meets_improper.mpr ⟨?_, hparams, htail⟩) fun _ h =>
      .pure ⟨hhead, h⟩
    exact hpair.imp_right fun h => ⟨hne, h.2⟩
  all_goals grind

@[grind ←] theorem keeps_defineProcedure (s : Scope) (depth : Nat) {spec : Value}
    {forms : List Value} (hspec : Meets L.standard spec) (hforms : Meets L.standard forms) :
    L.Keeps (defineProcedure s depth spec forms) := by
  induction depth generalizing spec forms with
  | zero => exact .fail _
  | succ depth ih =>
    unfold defineProcedure
    grind

theorem mirrors_define (hg : g.Mirrors L g') (s : Scope) {args : List Value}
    (hargs : Meets L.standard args) : L.Mirrors (define g s args) (define g' s args) := by
  unfold define
  split
  · exact .fail _
  · split <;> grind
  · grind

theorem mirrors_assign (hg : g.Mirrors L g') (s : Scope) {args : List Value}
    (hargs : Meets L.standard args) : L.Mirrors (assign g s args) (assign g' s args) := by
  unfold assign
  split <;> grind

@[grind ←] theorem keeps_defineExpander (name : String) (transformer : Value) (s : Scope) :
    L.Keeps (defineExpander name transformer s) := by
  unfold defineExpander
  grind

theorem mirrors_defineMacro (hg : g.Mirrors L g') (s : Scope) {args : List Value}
    (hargs : Meets L.standard args) :
    L.Mirrors (defineMacro g s args) (defineMacro g' s args) := by
  unfold defineMacro
  split <;> grind

end Definition

section Modules

@[grind .] theorem keeps_symbolNames (who : String) (vs : List Value) :
    L.Keeps (symbolNames who vs) := by
  fun_induction symbolNames who vs with
  | case1 => exact .pure (meets_nil.mpr trivial)
  | case2 name rest ih =>
    exact .bind ih fun _ _ => .pure fun name _ => trivial
  | case3 v rest hsym => exact .bind (keeps_described v) fun _ _ => .fail _

@[grind ←] theorem mirrors_runIn (hg : g.Mirrors L g') (id : Nat) {forms : List Value}
    (hforms : Meets L.standard forms) : L.Mirrors (runIn g id forms) (runIn g' id forms) :=
  mirrors_within id (hg.runAll _ hforms)

theorem mirrors_defineModule (hg : g.Mirrors L g') (s : Scope) {args : List Value}
    (hargs : Meets L.standard args) :
    L.Mirrors (defineModule g s args) (defineModule g' s args) := by
  unfold defineModule
  split <;> grind

variable (g g') in
theorem mirrors_selectModule (s : Scope) (args : List Value) :
    L.Mirrors (selectModule g s args) (selectModule g' s args) := by
  unfold selectModule
  split
  · refine .bind (keeps_moduleName _) fun name _ => ?_
    refine .reading (fun m m' hm => by rw [Lawful.findModule? hm]) fun m => ?_
    cases m.findModule? name with
    | some id => exact .bind (keeps_select id) fun _ _ => .pure meets_void
    | none => exact .fail _
  · exact .fail _

variable (g g') in
theorem mirrors_exportNames (s : Scope) (items : List Value) :
    L.Mirrors (exportNames g s items) (exportNames g' s items) := by
  unfold exportNames
  grind

@[grind .] theorem keeps_isStandardLibrary (v : Value) : L.Keeps (isStandardLibrary v) := by
  unfold isStandardLibrary
  grind

@[grind .] theorem keeps_importInto (id : Nat) (vs : List Value) : L.Keeps (importInto id vs) := by
  induction vs with
  | nil => exact .pure trivial
  | cons v rest ih =>
    unfold importInto
    refine .bind (keeps_moduleName v) fun name _ => ?_
    refine .reading (fun m m' hm => by rw [Lawful.findModule? hm]) fun m => ?_
    cases m.findModule? name with
    | some other => exact .bind (Lawful.importModule id other) fun _ _ => ih
    | none =>
      exact .bind (keeps_isStandardLibrary v) fun _ _ => .ite ih (.bind (.fail _) fun _ _ => ih)

variable (g g') in
theorem mirrors_importModules (s : Scope) (items : List Value) :
    L.Mirrors (importModules g s items) (importModules g' s items) := by
  unfold importModules
  grind

@[grind ←] theorem mirrors_includeFiles (hg : g.Mirrors L g') (id : Nat) (vs : List Value) :
    L.Mirrors (includeFiles g id vs) (includeFiles g' id vs) := by
  induction vs with
  | nil => exact .pure trivial
  | cons v rest ih =>
    unfold includeFiles
    split <;> grind

@[grind ←] theorem mirrors_declare (hg : g.Mirrors L g') (id : Nat) {v : Value}
    (hv : Meets L.standard v) : L.Mirrors (declare g id v) (declare g' id v) := by
  have hparts := meets_elements? hv
  unfold declare
  split <;> grind

@[grind ←] theorem mirrors_declareAll (hg : g.Mirrors L g') (id : Nat) {vs : List Value}
    (hvs : Meets L.standard vs) : L.Mirrors (declareAll g id vs) (declareAll g' id vs) := by
  induction vs with
  | nil => exact .pure trivial
  | cons v rest ih =>
    obtain ⟨hv, hrest⟩ := meets_cons.mp hvs
    exact .bind (mirrors_declare hg id hv) fun _ _ => ih hrest

theorem mirrors_defineLibrary (hg : g.Mirrors L g') (s : Scope) {args : List Value}
    (hargs : Meets L.standard args) :
    L.Mirrors (defineLibrary g s args) (defineLibrary g' s args) := by
  unfold defineLibrary
  split <;> grind

end Modules

end Form

namespace Quasiquote

/-- The values that stand for one element of a template. -/
abbrev FollowsDraft {α : Type} [Checkable α] (L : Link) (x x' : Run α) : Prop :=
  L.Follows (Meets L.standard.draft) x x'

theorem followsDraft_newList {items : List Value} (h : Meets L.standard.draft items) :
    FollowsDraft L (Run.newList items) (Run.newList items) :=
  .bind Lawful.newTag fun _ _ => .pure (meets_list.mpr h)

theorem meets_operand? {S : Standard} {tag : String} {v x : Value} (hv : Meets S v)
    (h : operand? tag v = some x) : Meets S x := by
  unfold operand? at h
  split at h
  · split at h
    · cases h
      exact (meets_cons.mp (meets_cons.mp (meets_list.mp hv)).2).1
    · cases h
  · cases h

mutual

theorem follows_template (hg : g.Mirrors L g') (s : Scope) : ∀ (level : Nat) {v : Value},
    Meets L.standard v → FollowsDraft L (template g s level v) (template g' s level v)
  | level, .list tag [head, x], h => by
    obtain ⟨-, hrest⟩ := meets_cons.mp (meets_list.mp h)
    obtain ⟨hx, -⟩ := meets_cons.mp hrest
    have hpair : ∀ name {inner : Value}, Meets L.standard.draft inner →
        FollowsDraft L (Run.newList [.sym name, inner]) (Run.newList [.sym name, inner]) :=
      fun name inner hinner => followsDraft_newList
        (meets_cons.mpr ⟨meets_sym name, meets_cons.mpr ⟨hinner, meets_nil.mpr trivial⟩⟩)
    unfold template
    dsimp only
    split
    · split
      · exact (hg.eval hx s).weaken fun _ => meets_draft
      · exact .bind (follows_template hg s (level - 1) hx) fun _ => hpair _
    split
    · exact .bind (follows_template hg s (level + 1) hx) fun _ => hpair _
    · exact .bind (follows_templates hg s level (meets_list.mp h)) fun _ => followsDraft_newList
  | level, .list tag [], h | level, .list tag [_], h | level, .list tag (_ :: _ :: _ :: _), h => by
    unfold template
    exact .bind (follows_templates hg s level (meets_list.mp h)) fun _ => followsDraft_newList
  | level, .vector tag items, h => by
    unfold template
    exact .bind (follows_templates hg s level (meets_vector.mp h)) fun _ hvs =>
      .bind Lawful.newTag fun _ _ => .pure (meets_vector.mpr hvs)
  | level, .improper tag items tail, h => by
    obtain ⟨-, hitems, htail⟩ := meets_improper.mp h
    unfold template
    refine .bind (follows_templates hg s level hitems) fun expanded hexpanded => ?_
    refine .bind (follows_template hg s level htail) fun rest hrest => ?_
    split
    · exact followsDraft_newList (meets_append.mpr ⟨hexpanded, meets_list.mp hrest⟩)
    · exact followsDraft_newList (meets_append.mpr ⟨hexpanded, meets_vector.mp hrest⟩)
    · exact .bind Lawful.newTag fun _ _ =>
        .pure (meets_improper.mpr ⟨.inl rfl, hexpanded, hrest⟩)
  | _, .bool _, h | _, .int _, h | _, .real _ _, h | _, .str _ _, h | _, .char _, h
  | _, .sym _, h | _, .object _ _, h => by
    unfold template
    exact .pure (meets_draft h)

theorem follows_templates (hg : g.Mirrors L g') (s : Scope) : ∀ (level : Nat) {vs : List Value},
    Meets L.standard vs → FollowsDraft L (templates g s level vs) (templates g' s level vs)
  | _, [], _ => by
    unfold templates
    exact .pure (meets_nil.mpr trivial)
  | level, v :: rest, h => by
    obtain ⟨hv, hrest⟩ := meets_cons.mp h
    have hjoin : ∀ {here : List Value}, Meets L.standard.draft here →
        FollowsDraft L (do return here ++ (← templates g s level rest))
          (do return here ++ (← templates g' s level rest)) := fun hhere =>
      .bind (follows_templates hg s level hrest) fun _ hvs => .pure (meets_append.mpr ⟨hhere, hvs⟩)
    unfold templates
    cases hx : if level = 1 then operand? "unquote-splicing" v else none with
    | some x =>
      have hspliced : Meets L.standard x := by
        split at hx
        · exact meets_operand? hv hx
        · cases hx
      refine .bind (hg.eval hspliced s) fun w hw => ?_
      have hparts := meets_elements? hw
      cases hitems : w.elements? with
      | some items =>
        rw [hitems] at hparts
        exact .bind (.pure (meets_all_draft (meets_some.mp hparts))) fun _ => hjoin
      | none => exact .bind (.throw _) fun _ => hjoin
    | none =>
      refine .bind (follows_template hg s level hv) fun w hw => ?_
      exact .bind (.pure (meets_cons.mpr ⟨hw, meets_nil.mpr trivial⟩)) fun _ => hjoin

end

end Quasiquote

end LiveScheme
