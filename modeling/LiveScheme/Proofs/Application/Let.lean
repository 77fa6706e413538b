import LiveScheme.Proofs.Application.Apply
import LiveScheme.Proofs.Machine.Brackets

/-!
# Local bindings and application

`let` evaluates its initial expressions, binds its names to their values in a new frame and goes
through its body there. The immediate application of a lambda expression with the same names and
the same body does so as well, with one difference: a procedure keeps a body of several forms as one
form, whose head `begin` is looked up in the frame of the call.
-/

namespace LiveScheme

open Renaming Comparison

section Expressions

namespace Engine

/-- Goes through the forms of a body. -/
def sequence (g : Engine) (s : Scope) (forms : List Value) : Run Value := do
  g.finish (← g.body s forms)

theorem eval_keyword {head : Value} {s : Scope} {m : Machine} {f : SpecialForm}
    (h : Run.keyword? head s m = .ok (some (.form f)) m) (allowance : Nat) (t : Identity)
    (args : List Value) :
    (ofAllowance (allowance + 1)).eval (.list t (head :: args)) s m =
      (f.run (ofAllowance allowance) s args >>= (ofAllowance allowance).finish) m := by
  rw [eval_succ]
  unfold step
  rw [bind_assoc, bind_of_ok h]

theorem eval_application {head : Value} {s : Scope} {m : Machine}
    (h : Run.keyword? head s m = .ok none m) (allowance : Nat) (t : Identity) (args : List Value) :
    (ofAllowance (allowance + 1)).eval (.list t (head :: args)) s m =
      (do
        let proc ← (ofAllowance allowance).eval head s
        let values ← (ofAllowance allowance).evalAll s args
        (ofAllowance allowance).callFrom s proc values) m := by
  rw [eval_succ]
  unfold step callFrom
  rw [bind_assoc, bind_of_ok h]
  simp only [bind_assoc]

theorem Follows.sequence {ρ : Comparison} {lax : Bool} {g g' : Engine} (hg : g.Follows ρ lax g')
    (s : Scope) (forms : List Value) :
    ρ.Follows lax (g.sequence s forms) (g'.sequence s (ρ.on forms)) :=
  .bind (hg.body s forms) fun next => hg.finish next

theorem eval_text {v : Value} {cs : List Char} (h : v.text? = some cs) (allowance : Nat)
    (s : Scope) : (ofAllowance (allowance + 1)).eval v s = pure v := by
  cases v <;> first | rfl | cases h

/-- A leading text is a form without effect. -/
theorem sequence_splitDoc (allowance : Nat) (s : Scope) (forms : List Value) :
    (ofAllowance (allowance + 1)).sequence s (Closure.splitDoc forms).2 =
      (ofAllowance (allowance + 1)).sequence s forms := by
  unfold Closure.splitDoc
  split
  · next first second rest =>
    split
    · next cs htext =>
      have hbody : (ofAllowance (allowance + 1)).body s (first :: second :: rest) =
          (ofAllowance (allowance + 1)).eval first s >>= fun _ =>
            (ofAllowance (allowance + 1)).body s (second :: rest) := rfl
      unfold sequence
      rw [hbody, eval_text htext, pure_bind]
    · rfl
  · rfl

theorem length_of_evalAll {g : Engine} {s : Scope} {es vs : List Value} {m n : Machine}
    (h : g.evalAll s es m = .ok vs n) : vs.length = es.length := by
  induction es generalizing vs m with
  | nil =>
    cases h
    rfl
  | cons e rest ih =>
    obtain ⟨v, k, -, h⟩ := exists_of_bind_ok h
    obtain ⟨more, l, hrest, h⟩ := exists_of_bind_ok h
    cases h
    exact congrArg (· + 1) (ih hrest)

end Engine

end Expressions

/-- What a head denotes is denoted by it on related machines. -/
theorem Comparison.keyword?_of_related {ρ : Comparison} {n n' : Machine} (hn : ρ.Related n n')
    (hadmits : ρ.Admits n) {name : String} {s : Scope} {f : SpecialForm}
    (h : Run.keyword? (.sym name) s n = .ok (some (.form f)) n) :
    Run.keyword? (.sym name) s n' = .ok (some (.form f)) n' := by
  have hfollows : ρ.Follows false (Run.keyword? (.sym name) s) (Run.keyword? (.sym name) s) :=
    keeps_keyword? (.sym name) s
  have hmatches := hfollows.run hn (by rwa [Run.after_of_ok h])
  rw [h] at hmatches
  obtain ⟨k, hk, -⟩ := hmatches.exists_ok
  have hpreserves : Preserves id (Run.keyword? (.sym name) s) := Run.preserves_keyword? _ s
  have hsame : k = n' := hpreserves.of_ok hk
  rw [hsame] at hk
  exact hk

/-- A closure stays at its place, though it may be given a name there. -/
theorem Machine.Becomes.closure {m n : Machine} (h : m.Becomes n) {id : Nat} {c : Closure}
    (hc : m.closures[id]? = some c) : ∃ name, n.closures[id]? = some { c with name } := by
  induction h generalizing c with
  | trans _ _ ih ih' =>
    obtain ⟨name, hname⟩ := ih hc
    obtain ⟨name', hname'⟩ := ih' hname
    exact ⟨name', hname'⟩
  | newClosure m d =>
    obtain ⟨hid, rfl⟩ := Array.getElem?_eq_some_iff.mp hc
    exact ⟨_, by rw [Array.getElem?_push, if_neg (by omega), hc]⟩
  | nameClosure m place name =>
    rw [Array.getElem?_modify, hc]
    split
    · exact ⟨_, rfl⟩
    · exact ⟨_, rfl⟩
  | within m m' place _ ih => exact ih hc
  | capturing m m' _ ih => exact ih hc
  | _ => exact ⟨_, hc⟩

namespace Form

/-- A binding with an initial expression, as it is written. -/
structure WrittenBinding where
  tag : Identity
  name : String
  init : Value

namespace WrittenBinding

def value (e : WrittenBinding) : Value := .list e.tag [.sym e.name, e.init]

def binding (e : WrittenBinding) : LetBinding := ⟨e.name, some e.init⟩

def formal (e : WrittenBinding) : Value := .sym e.name

end WrittenBinding

instance : Renames WrittenBinding := ⟨fun ρ e => ⟨ρ.on e.tag, e.name, ρ.on e.init⟩⟩

instance : Steady WrittenBinding := ⟨fun e => by
  cases e
  simp only [Renaming.on, Renames.rename]
  exact congrArg₂ (WrittenBinding.mk · _ ·) (on_identity _) (on_identity _)⟩

/-- The form `(let ((name init) ...) form ...)`. -/
def letForm (t t' : Identity) (entries : List WrittenBinding) (forms : List Value) : Value :=
  .list t (.sym "let" :: .list t' (entries.map WrittenBinding.value) :: forms)

/-- The form `(lambda (name ...) form ...)`. -/
def lambdaForm (t t' : Identity) (entries : List WrittenBinding) (forms : List Value) : Value :=
  .list t (.sym "lambda" :: .list t' (entries.map WrittenBinding.formal) :: forms)

/-- Evaluates the initial expressions and binds the names to their values in a new frame. -/
def letFrame (g : Engine) (s : Scope) (entries : List WrittenBinding) : Run Scope := do
  let values ← g.evalAll s (entries.map WrittenBinding.init)
  return s.inner (← Run.newFrame (tableOf (entries.map WrittenBinding.binding) values))

theorem letBindingsOf_written (entries : List WrittenBinding) :
    letBindingsOf (entries.map WrittenBinding.value) =
      pure (entries.map WrittenBinding.binding) := by
  induction entries with
  | nil => rfl
  | cons e rest ih =>
    rw [List.map_cons, letBindingsOf, ih]
    rfl

theorem letBindings_written (t : Identity) (entries : List WrittenBinding) :
    letBindings (.list t (entries.map WrittenBinding.value)) =
      pure (entries.map WrittenBinding.binding) :=
  letBindingsOf_written entries

theorem initials_written (g : Engine) (s : Scope) (entries : List WrittenBinding) :
    initials g s (entries.map WrittenBinding.binding) =
      g.evalAll s (entries.map WrittenBinding.init) := by
  induction entries with
  | nil => rfl
  | cons e rest ih =>
    rw [List.map_cons, initials, ih]
    rfl

theorem letPlain_written (g : Engine) (s : Scope) (t : Identity) (entries : List WrittenBinding)
    {forms : List Value} (hforms : forms ≠ []) :
    letPlain g s (.list t (entries.map WrittenBinding.value) :: forms) =
      letFrame g s entries >>= fun inner => g.body inner forms := by
  cases forms with
  | nil => exact absurd rfl hforms
  | cons form forms =>
    unfold letPlain letFrame
    simp only [letBindings_written, initials_written, pure_bind, bind_assoc]

end Form

namespace Closure

open Form

/-- A body is kept as one form. -/
inductive Packs : List Value → Value → Prop
  | single (form : Value) : Packs [form] form
  | several (t : Identity) {forms : List Value} : forms.length ≠ 1 →
    Packs forms (.list t (.sym "begin" :: forms))

theorem bindRequired_written (entries : List WrittenBinding) (values : List Value)
    (table : Table Value) :
    bindRequired table (entries.map WrittenBinding.formal) values =
      pure (((entries.map WrittenBinding.binding).zip values).foldl
        (fun table entry => table.put entry.1.name entry.2) table) := by
  induction entries generalizing values table with
  | nil => cases values <;> rfl
  | cons e rest ih =>
    cases values with
    | nil => rfl
    | cons v values => exact ih values _

theorem bind_written {c : Closure} {entries : List WrittenBinding}
    (hc : c.formals = ⟨entries.map WrittenBinding.formal, none⟩) {values : List Value}
    (hlength : values.length = entries.length) :
    c.bind values = do
      let frame ← Run.newFrame (tableOf (entries.map WrittenBinding.binding) values)
      return c.scope.inner frame := by
  unfold Closure.bind
  simp [hc, hlength, bindRequired_written, tableOf]

theorem knows_splitDoc {m : Machine} {forms : List Value} (h : m.Knows forms) :
    m.Knows (splitDoc forms).2 := fun ρ hρ => by
  have hsplit := splitDoc_on (ρ := ⟨ρ, 0, 0⟩) forms
  rw [h ρ hρ] at hsplit
  exact (congrArg Prod.snd hsplit).symm

/-- A closure for the bindings is made at the next place. -/
theorem make_written (t : Identity) (entries : List WrittenBinding) (forms : List Value) (s : Scope)
    (name : Option String) (m : Machine) : ∃ tags body, Packs (splitDoc forms).2 body ∧
      make (.list t (entries.map WrittenBinding.formal)) forms s name m =
        .ok (.closure m.closures.size) { m with
          nextTag := m.nextTag + tags
          closures := m.closures ++ #[⟨name, ⟨entries.map WrittenBinding.formal, none⟩, body, s,
            (splitDoc forms).1⟩] } := by
  unfold make
  generalize splitDoc forms = split
  obtain ⟨doc, forms⟩ := split
  rcases forms with _ | ⟨form, _ | ⟨second, rest⟩⟩
  · exact ⟨1, _, .several _ (by simp), rfl⟩
  · exact ⟨0, _, .single form, rfl⟩
  · exact ⟨1, _, .several _ (by simp), rfl⟩

theorem exists_place_of_make {formals : Value} {forms : List Value} {s : Scope}
    {name : Option String} {m n : Machine} {proc : Value}
    (h : make formals forms s name m = .ok proc n) :
    ∃ id, proc = .closure id ∧ id < n.closures.size := by
  obtain ⟨formals, k, -, h⟩ := exists_of_bind_ok h
  generalize splitDoc forms = split at h
  obtain ⟨doc, forms⟩ := split
  rcases forms with _ | ⟨form, _ | ⟨second, rest⟩⟩
  all_goals
    obtain ⟨body, l, -, h⟩ := exists_of_bind_ok h
    cases h
    exact ⟨_, rfl, by simp⟩

end Closure

namespace Form

section Renaming

variable {ρ : Comparison} {lax : Bool} {g g' k k' : Engine}

theorem inits_on (entries : List WrittenBinding) :
    (ρ.on entries).map WrittenBinding.init = ρ.on (entries.map WrittenBinding.init) := by
  induction entries with
  | nil => rfl
  | cons e rest ih => exact congrArg _ ih

theorem bindings_on (entries : List WrittenBinding) :
    (ρ.on entries).map WrittenBinding.binding = ρ.on (entries.map WrittenBinding.binding) := by
  induction entries with
  | nil => rfl
  | cons e rest ih => exact congrArg _ ih

theorem formals_on (entries : List WrittenBinding) :
    (ρ.on entries).map WrittenBinding.formal = ρ.on (entries.map WrittenBinding.formal) := by
  induction entries with
  | nil => rfl
  | cons e rest ih => exact congrArg _ ih

theorem follows_letFrame (hg : g.Follows ρ lax g') (s : Scope) (entries : List WrittenBinding) :
    ρ.Follows lax (letFrame g s entries) (letFrame g' s (ρ.on entries)) := by
  unfold letFrame
  rw [inits_on, bindings_on]
  refine .bind (hg.evalAll s _) fun values => ?_
  rw [tableOf_on]
  exact .bind (keeps_newFrame _) fun frame => .pure rfl

/-- What both forms come to, where the body may have less of the allowance. -/
def letCore (s : Scope) (entries : List WrittenBinding) (forms : List Value) (g k : Engine) :
    Run Value := do
  let inner ← letFrame g s entries
  k.sequence inner (Closure.splitDoc forms).2

theorem follows_letCore (hg : g.Follows ρ lax g') (hk : k.Follows ρ lax k') (s : Scope)
    (entries : List WrittenBinding) (forms : List Value) :
    ρ.Follows lax (letCore s entries forms g k)
      (letCore s (ρ.on entries) (ρ.on forms) g' k') := by
  unfold letCore
  rw [Closure.splitDoc_on]
  exact .bind (follows_letFrame hg s entries) fun inner => hk.sequence inner _

end Renaming

section Application

variable {s : Scope} {entries : List WrittenBinding} {forms : List Value} {m : Machine}

theorem lasting_letCore (s : Scope) (entries : List WrittenBinding) (forms : List Value) :
    LastingBoth (letCore s entries forms) := by
  intro t p g g' k k' hg hk
  have hcore := follows_letCore hg hk s entries forms
  rwa [on_same, on_same] at hcore

theorem eval_letForm (hforms : forms ≠ [])
    (hlet : Run.keyword? (.sym "let") s m = .ok (some (.form .letPlain)) m) (t t' : Identity)
    (allowance : Nat) :
    (Engine.ofAllowance (allowance + 2)).eval (letForm t t' entries forms) s m =
      letCore s entries forms (.ofAllowance (allowance + 1)) (.ofAllowance (allowance + 1)) m := by
  unfold letForm letCore
  rw [Engine.eval_keyword hlet, SpecialForm.run, letPlain_written _ _ _ _ hforms]
  simp only [Engine.sequence_splitDoc]
  rw [bind_assoc]
  rfl

theorem eval_lambdaForm (hforms : forms ≠ [])
    (hlambda : Run.keyword? (.sym "lambda") s m = .ok (some (.form .lambda)) m) (t t' : Identity)
    (allowance : Nat) :
    (Engine.ofAllowance (allowance + 1)).eval (lambdaForm t t' entries forms) s m =
      Closure.make (.list t' (entries.map WrittenBinding.formal)) forms s none m := by
  obtain ⟨form, rest, rfl⟩ := List.exists_cons_of_ne_nil hforms
  unfold lambdaForm
  rw [Engine.eval_keyword hlambda, SpecialForm.run]
  simp only [bind_assoc, pure_bind, Engine.finish, bind_pure]

/-- A call of a closure for the entries binds their names and evaluates the body. -/
theorem evalAll_callFrom {g : Engine} (hg : g.Moves) {id : Nat} {c : Closure}
    (hc : m.closures[id]? = some c)
    (hformals : c.formals = ⟨entries.map WrittenBinding.formal, none⟩) :
    (g.evalAll c.scope (entries.map WrittenBinding.init) >>=
        g.callFrom c.scope (.closure id)) m =
      (letFrame g c.scope entries >>= g.eval c.body) m := by
  unfold letFrame
  rw [bind_assoc]
  have hmoves := (hg.tame.evalAll c.scope (entries.map WrittenBinding.init)).moves m
  cases h : g.evalAll c.scope (entries.map WrittenBinding.init) m with
  | error stop n => rw [bind_of_error h, bind_of_error h]
  | ok values n =>
    rw [Run.after_of_ok h] at hmoves
    obtain ⟨name, hname⟩ := hmoves.closure hc
    have hclosure : Run.closure? (.closure id) n = .ok (some { c with name }) n := by
      rw [← hname]
      rfl
    have hlength : values.length = entries.length := by
      rw [Engine.length_of_evalAll h, List.length_map]
    have hbind := Closure.bind_written (c := { c with name }) hformals hlength
    rw [bind_of_ok h, bind_of_ok h]
    unfold Engine.callFrom Engine.call
    rw [bind_assoc, bind_of_ok hclosure]
    simp only [hbind, bind_assoc, pure_bind]
    rfl

/-- A body that is kept as one form needs `begin` where it has several. -/
theorem eval_of_packs {body : Value} (hpacks : Closure.Packs forms body)
    (hbegin : forms.length = 1 ∨
      Run.keyword? (.sym "begin") s m = .ok (some (.form .begin)) m) (allowance : Nat) :
    (Engine.ofAllowance (allowance + 1)).eval body s m =
      (Engine.ofAllowance (if forms.length = 1 then allowance + 1 else allowance)).sequence s
        forms m := by
  cases hpacks with
  | single form => rfl
  | several t hlength =>
    rw [Engine.eval_keyword (hbegin.resolve_left hlength), if_neg hlength]
    rfl

/-- In every frame that the bindings can lead to, the head of a body of several forms is the
keyword. -/
def BeginsBody (s : Scope) (entries : List WrittenBinding) (m : Machine) : Prop :=
  ∀ allowance inner n, letFrame (.ofAllowance allowance) s entries m = .ok inner n →
    Run.keyword? (.sym "begin") inner n = .ok (some (.form .begin)) n

/-- The rest of an application of the lambda expression, once its closure is made. -/
theorem exists_eval_application (entries : List WrittenBinding) (hforms : forms ≠ [])
    (hlambda : Run.keyword? (.sym "lambda") s m = .ok (some (.form .lambda)) m)
    (t t' t'' : Identity) : ∃ tags body c, Closure.Packs (Closure.splitDoc forms).2 body ∧
      ∀ allowance, (Engine.ofAllowance (allowance + 2)).eval
          (.list t (lambdaForm t' t'' entries forms :: entries.map WrittenBinding.init)) s m =
        (letFrame (.ofAllowance (allowance + 1)) s entries >>=
          (Engine.ofAllowance (allowance + 1)).eval body)
          { m with nextTag := m.nextTag + tags, closures := m.closures ++ #[c] } := by
  obtain ⟨tags, body, hpacks, hmake⟩ := Closure.make_written t'' entries forms s none m
  let c : Closure :=
    ⟨none, ⟨entries.map WrittenBinding.formal, none⟩, body, s, (Closure.splitDoc forms).1⟩
  refine ⟨tags, body, c, hpacks, fun allowance => ?_⟩
  have hproc := (eval_lambdaForm hforms hlambda t' t'' allowance).trans hmake
  exact (Engine.eval_application rfl _ t _).trans ((bind_of_ok hproc).trans
    (evalAll_callFrom (c := c) (Engine.moves_ofAllowance _) Array.getElem?_push_size rfl))

theorem matches_letCore {ρ : Comparison} {m' : Machine} (hρ : ρ.Fixes m) (hm : ρ.Related m m')
    (hentries : m.Knows entries) (hknown : m.Knows forms) {body : Value}
    (hpacks : Closure.Packs (Closure.splitDoc forms).2 body)
    (hbegin : (Closure.splitDoc forms).2.length = 1 ∨ BeginsBody s entries m) (allowance : Nat)
    {k : Engine} (hk : k = .ofAllowance (if (Closure.splitDoc forms).2.length = 1
      then allowance + 1 else allowance))
    (hadmits : ρ.Admits ((letCore s entries forms (.ofAllowance (allowance + 1)) k).after m)) :
    ρ.Matches false (letCore s entries forms (.ofAllowance (allowance + 1)) k m)
      ((letFrame (.ofAllowance (allowance + 1)) s entries >>=
        (Engine.ofAllowance (allowance + 1)).eval body) m') := by
  subst hk
  have hself : ∀ a, Engine.Follows ρ false (.ofAllowance a) (.ofAllowance a) := Engine.follows_self
  have hframe := follows_letFrame (hself (allowance + 1)) s entries
  have hbody := fun a inner => (hself a).sequence inner (Closure.splitDoc forms).2
  rw [hentries _ hρ] at hframe
  rw [Closure.knows_splitDoc hknown _ hρ] at hbody
  refine hframe.run_bind (fun inner => (hbody _ inner).moves) hm hadmits
    fun inner n n' hn hnn' hadmits => ?_
  have hbegins : (Closure.splitDoc forms).2.length = 1 ∨
      Run.keyword? (.sym "begin") inner n' = .ok (some (.form .begin)) n' :=
    hbegin.imp_right fun hbegin =>
      keyword?_of_related hnn' (hadmits.mono ((hbody _ inner).moves n)) (hbegin _ _ _ hn)
  rw [on_fixed, eval_of_packs hpacks hbegins]
  exact (hbody _ inner).run hnn' hadmits

/-- An immediate application of a lambda expression ends as `let` does with the same bindings and
the same body, but for what was given out on the way, where `begin` denotes the keyword in the new
frame; it need not do so when the body is one form. -/
theorem agreeOn_letForm_application (hm : m.IsClosed) (hentries : m.Knows entries)
    (hknown : m.Knows forms) (hforms : forms ≠ [])
    (hlet : Run.keyword? (.sym "let") s m = .ok (some (.form .letPlain)) m)
    (hlambda : Run.keyword? (.sym "lambda") s m = .ok (some (.form .lambda)) m)
    (hbegin : (Closure.splitDoc forms).2.length = 1 ∨ BeginsBody s entries m)
    (t t' u u' u'' : Identity) :
    AgreeOn m (fun g => g.eval (letForm t t' entries forms) s) fun g =>
      g.eval (.list u (lambdaForm u' u'' entries forms :: entries.map WrittenBinding.init)) s := by
  obtain ⟨tags, body, c, hpacks, happlied⟩ :=
    exists_eval_application entries hforms hlambda u u' u''
  refine .of_core (lasting_letCore s entries forms) (lasting_eval _ s) (lasting_eval _ s) 1 1
    (fun a => if (Closure.splitDoc forms).2.length = 1 then a else a - 1)
    (fun a => ?_) (fun a ha => ?_) fun a ha => ?_
  · split <;> omega
  · obtain ⟨allowance, rfl⟩ := Nat.exists_eq_add_of_le' (show 1 ≤ a by omega)
    exact eval_letForm hforms hlet t t' allowance
  · obtain ⟨allowance, rfl⟩ := Nat.exists_eq_add_of_le' (show 1 ≤ a by omega)
    rw [happlied]
    exact hm.exists_matches tags #[c] fun ρ hρ hrelated hadmits =>
      matches_letCore hρ hrelated hentries hknown hpacks hbegin allowance rfl hadmits

/-- A body of two forms, the first of which changes the binding. -/
theorem ends_application_twoForms :
    (Machine.initial "2.10" true .empty).IsClosed ∧
    BeginsBody (.ofModule Machine.defaultId) [⟨.symbolName, "x", .int 1⟩]
      (.initial "2.10" true .empty) ∧
    ∃ ending, Ends
      (fun g => g.eval
        (.list .symbolName [lambdaForm .symbolName .symbolName [⟨.symbolName, "x", .int 1⟩]
          [.list .symbolName [.sym "set!", .sym "x", .int 2], .sym "x"], .int 1])
        (.ofModule Machine.defaultId)) (.initial "2.10" true .empty) ending ∧
      ending.outcome = .ok (.int 2) := by
  let m := Machine.initial "2.10" true .empty
  let s := Scope.ofModule Machine.defaultId
  let forms : List Value := [.list .symbolName [.sym "set!", .sym "x", .int 2], .sym "x"]
  have hclosed := Machine.isClosed_initial "2.10" true .empty
  have hlet : Run.keyword? (.sym "let") s m = .ok (some (.form .letPlain)) m := rfl
  have hlambda : Run.keyword? (.sym "lambda") s m = .ok (some (.form .lambda)) m := rfl
  have hbegin : BeginsBody s [⟨.symbolName, "x", .int 1⟩] m := fun allowance inner n h => by
    cases allowance with
    | zero => cases h
    | succ allowance =>
      cases h
      rfl
  have hknown : m.Knows forms := fun _ _ => rfl
  have hagree := agreeOn_letForm_application hclosed (fun _ _ => rfl) hknown nofun hlet hlambda
    (.inr hbegin) .symbolName .symbolName .symbolName .symbolName .symbolName
  have heval : (Engine.ofAllowance 4).eval
      (letForm .symbolName .symbolName [⟨.symbolName, "x", .int 1⟩] forms) s m =
        .ok (.int 2) { m with frames := #[[("x", .int 2)]] } := rfl
  obtain ⟨ending, hends, ρ, -, houtcome, -⟩ :=
    hagree.forth ⟨.ok (.int 2), _⟩ ⟨4, congrArg Ending.ofResult heval, nofun⟩
  exact ⟨hclosed, hbegin, ending, hends, houtcome⟩

end Application

end Form

end LiveScheme
