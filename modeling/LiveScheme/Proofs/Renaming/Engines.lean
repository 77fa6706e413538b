import LiveScheme.Proofs.Machine.Engines
import LiveScheme.Proofs.Renaming.Runs

/-!
# Engines under a renaming

An engine follows another one under a renaming when it does so at every task; its allowance may be
larger only in a lax comparison. Then calls of procedures, sequences and expansion follow as well,
which are all built over an engine.
-/

namespace LiveScheme

open Renaming Comparison

variable {ρ : Comparison} {lax : Bool}

structure Engine.Follows (ρ : Comparison) (lax : Bool) (g g' : Engine) : Prop where
  allowance : g.allowance ≤ g'.allowance
  strict : lax = false → g'.allowance = g.allowance
  perform : ∀ t : Task, ρ.Follows lax (g.perform t) (g'.perform (ρ.on t))

theorem Formals.follows_ofValue (v : Value) :
    ρ.Follows lax (Formals.ofValue v) (Formals.ofValue (ρ.on v)) := by
  have hdescribed : ∀ (v : Value) (e : String → SchemeError),
      ρ.Follows lax (do Run.fail (e (← Run.described v)) : Run Formals)
        (do Run.fail (e (← Run.described (ρ.on v)))) :=
    fun v e => .bind (keeps_described v) fun _ => .fail _
  cases v with
  | sym name => exact .pure rfl
  | list tag items | vector tag items =>
    simp only [on_list, on_vector]
    exact .pure rfl
  | improper tag items tail =>
    simp only [on_improper]
    cases tail with
    | sym name => exact .pure rfl
    | _ => exact hdescribed _ _
  | _ => exact hdescribed _ _

namespace Closure

theorem splitDoc_on (forms : List Value) :
    splitDoc (ρ.on forms) = ((splitDoc forms).1, ρ.on (splitDoc forms).2) := by
  rcases forms with _ | ⟨first, _ | ⟨second, rest⟩⟩
  · rfl
  · rfl
  · simp only [on_cons, splitDoc, Node.text?_on]
    split <;> simp

theorem follows_make (formals : Value) (forms : List Value) (s : Scope) (name : Option String) :
    ρ.Follows lax (Closure.make formals forms s name)
      (Closure.make (ρ.on formals) (ρ.on forms) s name) := by
  refine .bind (Formals.follows_ofValue formals) fun formals => ?_
  simp only [splitDoc_on]
  rcases (splitDoc forms).2 with _ | ⟨form, _ | ⟨second, rest⟩⟩
  · exact .bind (keeps_newList _) fun body => keeps_newClosure _
  · exact .bind (.pure rfl) fun body => keeps_newClosure _
  · exact .bind (keeps_newList _) fun body => keeps_newClosure _

theorem follows_bindRequired (table : Table Value) (formals args : List Value) :
    ρ.Follows lax (Closure.bindRequired table formals args)
      (Closure.bindRequired (ρ.on table) (ρ.on formals) (ρ.on args)) := by
  induction formals generalizing table args with
  | nil => cases args <;> exact .pure rfl
  | cons formal formals ih =>
    cases args with
    | nil => cases formal <;> exact .pure rfl
    | cons v args =>
      have hcannot : ρ.Follows lax
          (do Run.fail (.cannotDefine (← Run.described formal)) : Run (Table Value))
          (do Run.fail (.cannotDefine (← Run.described (ρ.on formal)))) :=
        .bind (keeps_described formal) fun _ => .fail _
      cases formal with
      | sym name =>
        simp only [on_cons, on_sym, Closure.bindRequired, Table.put_on]
        exact ih _ _
      | _ => exact hcannot

theorem follows_bind (c : Closure) (args : List Value) :
    ρ.Follows lax (c.bind args) ((ρ.on c).bind (ρ.on args)) := by
  unfold Closure.bind
  simp only [on_closure', on_formals, length_on, drop_on]
  refine .check (.fail _) (.bind (follows_bindRequired [] _ args) fun table => ?_)
  cases c.formals.rest with
  | none => exact .bind (.pure rfl) fun table => .bind (keeps_newFrame table) fun _ => .pure rfl
  | some name =>
    refine .bind (keeps_newList _) fun rest => ?_
    simp only [Table.put_on]
    exact .bind (.pure rfl) fun table => .bind (keeps_newFrame table) fun _ => .pure rfl

end Closure

namespace Engine.Follows

variable {g g' : Engine}

theorem moves (hg : g.Follows ρ lax g') : g.Moves := fun t => (hg.perform t).moves

theorem eval (hg : g.Follows ρ lax g') (e : Value) (s : Scope) :
    ρ.Follows lax (g.eval e s) (g'.eval (ρ.on e) s) := hg.perform (.eval e s)

theorem evalAll (hg : g.Follows ρ lax g') (s : Scope) (es : List Value) :
    ρ.Follows lax (g.evalAll s es) (g'.evalAll s (ρ.on es)) := by
  induction es with
  | nil => exact .pure rfl
  | cons e rest ih => exact .bind (hg.eval e s) fun _ => .bind ih fun _ => .pure rfl

theorem runAll (hg : g.Follows ρ lax g') (s : Scope) (es : List Value) :
    ρ.Follows lax (g.runAll s es) (g'.runAll s (ρ.on es)) := by
  induction es with
  | nil => exact .pure rfl
  | cons e rest ih => exact .bind (hg.eval e s) fun _ => ih

theorem body (hg : g.Follows ρ lax g') (s : Scope) (es : List Value) :
    ρ.Follows lax (g.body s es) (g'.body s (ρ.on es)) := by
  induction es with
  | nil => exact .pure rfl
  | cons e rest ih =>
    cases rest with
    | nil => exact .pure rfl
    | cons _ _ => exact .bind (hg.eval e s) fun _ => ih

theorem apply (hg : g.Follows ρ lax g') (proc : Value) (args : List Value) :
    ρ.Follows lax (g.apply proc args) (g'.apply (ρ.on proc) (ρ.on args)) := by
  refine .bind (keeps_closure? proc) fun c => ?_
  cases c with
  | some c => exact .bind (c.follows_bind args) fun s => hg.eval c.body s
  | none =>
    have hbad : ∀ v : Value, ρ.Follows lax
        (do Run.fail (.badProcedure (← Run.described v)) : Run Value)
        (do Run.fail (.badProcedure (← Run.described (ρ.on v)))) :=
      fun v => .bind (keeps_described v) fun _ => .fail _
    cases proc with
    | object kind parts =>
      cases kind <;> cases parts <;> first
        | exact hbad _
        | exact follows_current fun id => hg.perform (.call _ (.ofModule id) args)
    | _ => exact hbad _

theorem runInCurrent (hg : g.Follows ρ lax g') (ds : List Datum) :
    ρ.Follows lax (g.runInCurrent ds) (g'.runInCurrent ds) := by
  induction ds with
  | nil => exact .pure rfl
  | cons d rest ih =>
    refine .bind (keeps_ofDatum d) fun e => ?_
    exact follows_current (f := fun id => g.eval e (.ofModule id) >>= fun _ => g.runInCurrent rest)
      fun id => .bind (hg.eval e _) fun _ => ih

theorem loadFound (hg : g.Follows ρ lax g') (path : String) (home : Nat)
    (found : Except FileProblem String) :
    ρ.Follows lax (g.loadFound path home found) (g'.loadFound path home found) := by
  cases found with
  | error problem => exact .fail _
  | ok text =>
    exact follows_within home (.bind (keeps_ofRead _) fun forms => by
      rw [on_fixed]
      exact hg.runInCurrent forms)

theorem load (hg : g.Follows ρ lax g') (path : String) (home : Option Nat) :
    ρ.Follows lax (g.load path home) (g'.load path home) := by
  rw [g.load_eq, g'.load_eq]
  refine .get (g.load_eq path home ▸ hg.moves.load path home) fun m m' hm => ?_
  rw [hm.current, hm.disk]
  exact .check (.faulty _) (hg.loadFound path _ _)

theorem expandHead? (hg : g.Follows ρ lax g') (form : Value) (s : Scope) :
    ρ.Follows lax (g.expandHead? form s) (g'.expandHead? (ρ.on form) s) := by
  unfold Engine.expandHead?
  rw [Node.elements?_on]
  rcases form.elements? with _ | _ | ⟨head, args⟩
  · exact .pure rfl
  · exact .pure rfl
  · refine .bind (keeps_keyword? head s) fun keyword => ?_
    rcases keyword with _ | _ | ⟨tag, name, transformer⟩
    · exact .pure rfl
    · exact .pure rfl
    · exact .bind (hg.apply (.closure transformer) args) fun _ => .pure rfl

theorem mapInOrder {f f' : Value → Run Value} (hf : ∀ v, ρ.Follows lax (f v) (f' (ρ.on v)))
    (vs : List Value) :
    ρ.Follows lax (Engine.mapInOrder f vs) (Engine.mapInOrder f' (ρ.on vs)) := by
  induction vs with
  | nil => exact .pure rfl
  | cons v rest ih => exact .bind (hf v) fun _ => .bind ih fun _ => .pure rfl

theorem expandAll (hg : g.Follows ρ lax g') {fuel fuel' : Nat} (hle : fuel ≤ fuel')
    (hstrict : lax = false → fuel' = fuel) (form : Value) (s : Scope) :
    ρ.Follows lax (g.expandAll fuel form s) (g'.expandAll fuel' (ρ.on form) s) := by
  induction fuel generalizing fuel' form with
  | zero =>
    cases hlax : lax with
    | true => exact .giveUp rfl _
    | false =>
      rw [hstrict hlax]
      exact .throw _
  | succ fuel ih =>
    cases fuel' with
    | zero => cases hle
    | succ fuel' =>
      have hmore : ∀ form, ρ.Follows lax (g.expandAll fuel form s)
          (g'.expandAll fuel' (ρ.on form) s) := fun form =>
        ih (Nat.le_of_succ_le_succ hle) (fun hlax => Nat.succ.inj (hstrict hlax)) form
      refine .bind (hg.expandHead? form s) fun expanded => ?_
      cases expanded with
      | some e => exact hmore e
      | none =>
        cases form with
        | improper tag items tail =>
          simp only [on_improper]
          exact .bind (mapInOrder hmore items) fun items => keeps_newImproper items tail
        | list tag items =>
          cases items with
          | nil => exact .pure rfl
          | cons head rest =>
            simp only [on_list, on_cons, isTemplate, Node.isSym_on]
            exact .ite (.pure (on_list tag (head :: rest)).symm)
              (.bind (mapInOrder hmore (head :: rest)) fun items => keeps_newList items)
        | vector tag items =>
          cases items with
          | nil => exact .pure rfl
          | cons head rest =>
            simp only [on_vector, on_cons, isTemplate, Node.isSym_on]
            exact .ite (.pure (on_vector tag (head :: rest)).symm)
              (.bind (mapInOrder hmore (head :: rest)) fun items => keeps_newList items)
        | _ => exact .pure rfl

theorem expand (hg : g.Follows ρ lax g') (form : Value) (s : Scope) (everything : Bool) :
    ρ.Follows lax (g.expand form s everything) (g'.expand (ρ.on form) s everything) := by
  refine .ite (hg.expandAll hg.allowance hg.strict form s) (.bind (hg.expandHead? form s)
    fun expanded => .pure (option_getD_on expanded form))

end Engine.Follows

end LiveScheme
