import LiveScheme.Proofs.Mirror.Basic
import LiveScheme.Proofs.Reading.Shape

/-!
# Engines that mirror each other

Two engines mirror each other when they do so at every task. Then so do evaluation of several
expressions, calls of procedures and expansion, which are all built over an engine.
-/

set_option linter.unusedSectionVars false

namespace LiveScheme

open Link

variable {L : Link} [L.Lawful]

structure Engine.Mirrors (L : Link) (g g' : Engine) : Prop where
  allowance : g'.allowance = g.allowance
  perform : ∀ t : Task, Meets L.standard t → L.Mirrors (g.perform t) (g'.perform t)

@[grind ←] theorem Formals.keeps_ofValue {v : Value} (h : Meets L.standard v) :
    L.Keeps (Formals.ofValue v) := by
  unfold Formals.ofValue
  split
  · exact .pure (meets_nil.mpr trivial)
  · exact .pure (meets_improper.mp h).2.1
  · exact .bind (keeps_described _) fun _ _ => .fail _
  · exact .pure (meets_list.mp h)
  · exact .pure (meets_vector.mp h)
  · exact .bind (keeps_described _) fun _ _ => .fail _

namespace Closure

theorem meets_splitDoc {S : Standard} {forms : List Value} (h : Meets S forms) :
    Meets S (splitDoc forms).2 := by
  unfold splitDoc
  split
  · split
    · exact (meets_cons.mp h).2
    · exact h
  · exact h

@[grind ←] theorem keeps_make {formals : Value} {forms : List Value}
    (hformals : Meets L.standard formals) (hforms : Meets L.standard forms) (s : Scope)
    (name : Option String) : L.Keeps (Closure.make formals forms s name) := by
  refine .bind (Formals.keeps_ofValue hformals) fun formals hformals => ?_
  have hrest := meets_splitDoc hforms
  grind

@[grind ←] theorem meets_put {S : Standard} {table : Table Value} {name : String} {v : Value}
    (h : Meets S table) (hv : Meets S v) : Meets S (table.put name v) := by
  induction table with
  | nil => exact meets_cons.mpr ⟨⟨trivial, hv⟩, meets_nil.mpr trivial⟩
  | cons entry rest ih =>
    obtain ⟨hentry, hrest⟩ := meets_cons.mp h
    unfold Table.put
    split
    · exact meets_cons.mpr ⟨⟨trivial, hv⟩, hrest⟩
    · exact meets_cons.mpr ⟨hentry, ih hrest⟩

@[grind ←] theorem keeps_bindRequired {table : Table Value} {formals args : List Value}
    (htable : Meets L.standard table) (hargs : Meets L.standard args) :
    L.Keeps (Closure.bindRequired table formals args) := by
  fun_induction Closure.bindRequired table formals args with
  | case1 table name formals v args ih =>
    obtain ⟨hv, hrest⟩ := meets_cons.mp hargs
    exact ih (meets_put htable hv) hrest
  | case2 table formal rest v args hsym => exact .bind (keeps_described _) fun _ _ => .fail _
  | case3 => exact .pure htable

@[grind ←] theorem keeps_bind (c : Closure) {args : List Value} (hargs : Meets L.standard args) :
    L.Keeps (c.bind args) := by
  unfold Closure.bind
  refine .check (.fail _) (.bind (keeps_bindRequired (meets_nil.mpr trivial) hargs)
    fun table htable => ?_)
  cases c.formals.rest with
  | none =>
    exact .bind (.pure htable) fun _ h => .bind (Lawful.newFrame _ h) fun _ _ => .pure trivial
  | some name =>
    refine .bind (keeps_newList (meets_drop hargs _)) fun rest hrest => ?_
    exact .bind (.pure (meets_put htable hrest)) fun _ h =>
      .bind (Lawful.newFrame _ h) fun _ _ => .pure trivial

end Closure

namespace Engine.Mirrors

variable {g g' : Engine}

@[grind ←] theorem eval (hg : g.Mirrors L g') {e : Value} (he : Meets L.standard e) (s : Scope) :
    L.Mirrors (g.eval e s) (g'.eval e s) := hg.perform _ he

@[grind ←] theorem evalAll (hg : g.Mirrors L g') (s : Scope) {es : List Value}
    (hes : Meets L.standard es) : L.Mirrors (g.evalAll s es) (g'.evalAll s es) := by
  induction es with
  | nil => exact .pure (meets_nil.mpr trivial)
  | cons e rest ih =>
    obtain ⟨he, hrest⟩ := meets_cons.mp hes
    exact .bind (hg.eval he s) fun _ hv => .bind (ih hrest) fun _ hvs =>
      .pure (meets_cons.mpr ⟨hv, hvs⟩)

@[grind ←] theorem runAll (hg : g.Mirrors L g') (s : Scope) {es : List Value}
    (hes : Meets L.standard es) : L.Mirrors (g.runAll s es) (g'.runAll s es) := by
  induction es with
  | nil => exact .pure trivial
  | cons e rest ih =>
    obtain ⟨he, hrest⟩ := meets_cons.mp hes
    exact .bind (hg.eval he s) fun _ _ => ih hrest

@[grind ←] theorem body (hg : g.Mirrors L g') (s : Scope) {es : List Value}
    (hes : Meets L.standard es) : L.Mirrors (g.body s es) (g'.body s es) := by
  fun_induction Engine.body g s es with
  | case1 => exact .pure (meets_object.mpr ⟨rfl, meets_nil.mpr trivial⟩)
  | case2 last => exact .pure (meets_cons.mp hes).1
  | case3 e rest hne ih =>
    obtain ⟨he, hrest⟩ := meets_cons.mp hes
    rw [Engine.body]
    · exact .bind (hg.eval he s) fun _ _ => ih hrest
    · exact hne

@[grind ←] theorem apply (hg : g.Mirrors L g') {proc : Value} {args : List Value}
    (hproc : Meets L.standard proc) (hargs : Meets L.standard args) :
    L.Mirrors (g.apply proc args) (g'.apply proc args) := by
  refine .bind (Lawful.closure? proc) fun c hc => ?_
  cases c with
  | some c => exact .bind (c.keeps_bind hargs) fun s _ => hg.eval (meets_some.mp hc).2 s
  | none =>
    dsimp only
    split
    · exact mirrors_current fun id => hg.perform _ (meets_callTask.mpr ⟨hproc, hargs⟩)
    · exact .bind (keeps_described _) fun _ _ => .fail _

theorem runInCurrent (hg : g.Mirrors L g') {ds : List Datum} (hds : Meets L.standard ds) :
    L.Mirrors (g.runInCurrent ds) (g'.runInCurrent ds) := by
  induction ds with
  | nil => exact .pure trivial
  | cons d rest ih =>
    obtain ⟨hd, hrest⟩ := meets_cons.mp hds
    refine .bind (keeps_ofDatum hd) fun e he => ?_
    have hcurrent : ∀ id, L.Mirrors (g.eval e (.ofModule id) >>= fun _ => g.runInCurrent rest)
        (g'.eval e (.ofModule id) >>= fun _ => g'.runInCurrent rest) := fun id =>
      .bind (hg.eval he _) fun _ _ => ih hrest
    exact mirrors_current hcurrent

theorem loadFound (hg : g.Mirrors L g') (path : String) (home : Nat)
    (found : Except FileProblem String) :
    L.Mirrors (g.loadFound path home found) (g'.loadFound path home found) := by
  cases found with
  | error problem => exact .fail _
  | ok text =>
    exact mirrors_within home
      (.bind (keeps_ofRead fun _ h => Datum.meets_readAll h) fun _ h => hg.runInCurrent h)

/-- Related machines see the same files. -/
@[grind ←] theorem load (hg : g.Mirrors L g') (path : String) (home : Option Nat) :
    L.Mirrors (g.load path home) (g'.load path home) := by
  rw [g.load_eq, g'.load_eq]
  exact .reading (fun m m' hm => by rw [Lawful.current hm, Lawful.disk hm]) fun m =>
    .check (.faulty _) (hg.loadFound path _ _)

@[grind ←] theorem expandHead? (hg : g.Mirrors L g') {form : Value} (hform : Meets L.standard form)
    (s : Scope) : L.Mirrors (g.expandHead? form s) (g'.expandHead? form s) := by
  have hparts := meets_elements? hform
  unfold Engine.expandHead?
  split <;> grind

/-- As many elements come out as go in. -/
theorem follows_mapInOrder {f f' : Value → Run Value}
    (hf : ∀ v, Meets L.standard v → L.Mirrors (f v) (f' v)) {vs : List Value}
    (hvs : Meets L.standard vs) :
    L.Follows (fun ws => Meets L.standard ws ∧ ws.length = vs.length)
      (Engine.mapInOrder f vs) (Engine.mapInOrder f' vs) := by
  induction vs with
  | nil => exact .pure ⟨meets_nil.mpr trivial, rfl⟩
  | cons v rest ih =>
    obtain ⟨hv, hrest⟩ := meets_cons.mp hvs
    exact .bind (hf v hv) fun _ hw => .bind (ih hrest) fun _ hws =>
      .pure ⟨meets_cons.mpr ⟨hw, hws.1⟩, congrArg (· + 1) hws.2⟩

theorem expandAll (hg : g.Mirrors L g') (fuel : Nat) {form : Value}
    (hform : Meets L.standard form) (s : Scope) :
    L.Mirrors (g.expandAll fuel form s) (g'.expandAll fuel form s) := by
  induction fuel generalizing form with
  | zero => exact .throw _
  | succ fuel ih =>
    have hmap : ∀ {vs}, Meets L.standard vs → _ := fun {vs} hvs =>
      follows_mapInOrder (L := L) (fun _ hv => ih hv) hvs
    unfold Engine.expandAll
    refine .bind (hg.expandHead? hform s) fun expanded hexpanded => ?_
    cases expanded with
    | some e => exact ih (meets_some.mp hexpanded)
    | none =>
      dsimp only
      split
      · next tag items tail =>
        obtain ⟨hpair, hitems, htail⟩ := meets_improper.mp hform
        refine Follows.bind (hmap hitems) fun ws hws => keeps_newImproper fun t => ?_
        refine meets_improper.mpr ⟨hpair.imp_right fun ⟨hne, hend⟩ => ⟨?_, hend⟩, hws.1, htail⟩
        rintro rfl
        exact hne (List.length_eq_zero_iff.mp hws.2.symm)
      · next tag head rest =>
        refine .ite (.pure hform) (Follows.bind (hmap (meets_list.mp hform)) fun ws hws => ?_)
        exact keeps_newList hws.1
      · next tag head rest =>
        refine .ite (.pure hform) (Follows.bind (hmap (meets_vector.mp hform)) fun ws hws => ?_)
        exact keeps_newList hws.1
      · exact .pure hform

@[grind ←] theorem expand (hg : g.Mirrors L g') {form : Value} (hform : Meets L.standard form)
    (s : Scope) (everything : Bool) :
    L.Mirrors (g.expand form s everything) (g'.expand form s everything) := by
  unfold Engine.expand Engine.expandOnce
  rw [hg.allowance]
  refine .ite (hg.expandAll _ hform s) (.bind (hg.expandHead? hform s) fun expanded h => ?_)
  exact .pure (meets_getD h hform)

end Engine.Mirrors

end LiveScheme
