import LiveScheme.Proofs.Machine.Tame

/-!
# What engines do to a machine

An engine is tame when everything that it performs is. Then so are evaluation of several
expressions, calls of procedures and expansion, which are all built over an engine. A file is loaded
tamely unless it is one that is refused.
-/

namespace LiveScheme

open Run

variable {R : Fault → Prop}

/-- An engine whose tasks only make changes of the known kinds. -/
def Engine.Moves (g : Engine) : Prop := ∀ t : Task, (g.perform t).Moves

/-- An engine whose tasks are tame. -/
def Engine.Tame (R : Fault → Prop) (g : Engine) : Prop := ∀ t : Task, (g.perform t).Tame R

@[grind .] theorem Formals.tame_ofValue (v : Value) : (Formals.ofValue v).Tame R := by
  unfold Formals.ofValue
  grind

namespace Closure

@[grind .] theorem tame_make (formals : Value) (forms : List Value) (s : Scope)
    (name : Option String) : (Closure.make formals forms s name).Tame R := by
  unfold Closure.make
  grind

@[grind .] theorem tame_bindRequired (table : Table Value) (formals args : List Value) :
    (Closure.bindRequired table formals args).Tame R := by
  fun_induction Closure.bindRequired table formals args with
  | case1 table name formals v args ih => exact ih
  | case2 table formal rest v args hsym => exact (Tame.described _).bind fun _ => .fail _
  | case3 => exact .pure _

@[grind .] theorem tame_bind (c : Closure) (args : List Value) : (c.bind args).Tame R := by
  unfold Closure.bind
  grind

end Closure

namespace Engine

theorem Moves.eval {g : Engine} (hg : g.Moves) (e : Value) (s : Scope) : (g.eval e s).Moves := hg _

theorem Moves.tame {g : Engine} (hg : g.Moves) : g.Tame fun _ => True := fun t => (hg t).tame

namespace Tame

variable {g : Engine}

theorem moves (hg : g.Tame R) : g.Moves := fun t => (hg t).moves

@[grind ←] theorem eval (hg : g.Tame R) (e : Value) (s : Scope) : (g.eval e s).Tame R := hg _

@[grind ←] theorem call (hg : g.Tame R) (p : Primitive) (s : Scope) (args : List Value) :
    (g.perform (.call p s args)).Tame R := hg _

@[grind ←] theorem evalAll (hg : g.Tame R) (s : Scope) (es : List Value) :
    (g.evalAll s es).Tame R := by
  induction es with
  | nil => exact .pure []
  | cons e rest ih => exact (hg.eval e s).bind fun _ => ih.bind fun _ => .pure _

@[grind ←] theorem runAll (hg : g.Tame R) (s : Scope) (es : List Value) :
    (g.runAll s es).Tame R := by
  induction es with
  | nil => exact .pure ()
  | cons e rest ih => exact (hg.eval e s).bind fun _ => ih

@[grind ←] theorem body (hg : g.Tame R) (s : Scope) (es : List Value) : (g.body s es).Tame R := by
  fun_induction Engine.body g s es with
  | case1 => exact .pure _
  | case2 last => exact .pure _
  | case3 e rest _ ih => exact (hg.eval e s).bind fun _ => ih

@[grind ←] theorem runInCurrent (hg : g.Tame R) (ds : List Datum) :
    (g.runInCurrent ds).Tame R := by
  induction ds with
  | nil => exact .pure ()
  | cons d rest ih =>
    exact (Run.Tame.ofDatum d).bind fun _ => Run.Tame.get.bind fun _ =>
      (hg.eval _ _).bind fun _ => ih

@[grind ←] theorem apply (hg : g.Tame R) (proc : Value) (args : List Value) :
    (g.apply proc args).Tame R := by
  unfold Engine.apply
  grind

@[grind ←] theorem expandHead? (hg : g.Tame R) (form : Value) (s : Scope) :
    (g.expandHead? form s).Tame R := by
  unfold Engine.expandHead?
  grind

@[grind ←] theorem mapInOrder {f : Value → Run Value} (hf : ∀ v, (f v).Tame R) (vs : List Value) :
    (Engine.mapInOrder f vs).Tame R := by
  induction vs with
  | nil => exact .pure []
  | cons v rest ih => exact (hf v).bind fun _ => ih.bind fun _ => .pure _

@[grind ←] theorem expandAll (hg : g.Tame R) (fuel : Nat) (form : Value) (s : Scope) :
    (g.expandAll fuel form s).Tame R := by
  induction fuel generalizing form with
  | zero => exact .endless
  | succ fuel ih =>
    have hmap : ∀ vs, (Engine.mapInOrder (fun v => g.expandAll fuel v s) vs).Tame R :=
      mapInOrder fun v => ih v
    unfold Engine.expandAll
    grind

@[grind ←] theorem expand (hg : g.Tame R) (form : Value) (s : Scope) (everything : Bool) :
    (g.expand form s everything).Tame R := by
  unfold Engine.expand Engine.expandOnce
  grind

theorem loadFound (hg : g.Tame R) (path : String) (home : Nat)
    {found : Except FileProblem String}
    (h : ∀ text f, found = .ok text →
      Datum.readAll (String.ofList (Text.unifyLineEnds text.toList)) = .error (.fault f) → R f) :
    (g.loadFound path home found).Tame R := by
  cases found with
  | error problem => exact .fail _
  | ok text =>
    refine .within home (.bind (.ofRead fun f hread => h text f rfl hread) fun _ => ?_)
    exact hg.runInCurrent _

/-- A file that is not refused is loaded tamely. -/
theorem load (hg : g.Tame R) (path : String) (home : Option Nat) {m : Machine}
    (h : m.loadRefusal? path = none) : (g.load path home).TameAt R m := by
  unfold Machine.loadRefusal? at h
  split at h
  · cases h
  · next hzero =>
    have hfound : (g.loadFound path (home.getD m.current) (m.disk.read path)).Tame R := by
      refine hg.loadFound _ _ fun text f htext hread => ?_
      simp only [htext, hread] at h
      cases h
    refine .of_eq ?_ (hfound m)
    rw [load_eq, get_bind, if_neg hzero]

theorem evalData (hg : g.Tame R) (home : Option Nat) (last : Value) (ds : List Datum) :
    (g.evalData home last ds).Tame R := by
  induction ds generalizing last with
  | nil => exact .pure last
  | cons d rest ih =>
    exact (Run.Tame.ofDatum d).bind fun e => Run.Tame.get.bind fun m =>
      (hg.eval _ _).bind fun v => ih v

end Tame

@[grind ←] theorem Moves.load {g : Engine} (hg : g.Moves) (path : String) (home : Option Nat) :
    (g.load path home).Moves := by
  intro m
  cases h : m.loadRefusal? path with
  | some f =>
    rw [after_of_error (load_of_refusal h home)]
    exact .refl m
  | none => exact (hg.tame.load path home h).moves

end Engine

end LiveScheme
