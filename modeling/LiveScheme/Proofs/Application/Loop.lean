import LiveScheme.Proofs.Application.Let

/-!
# Named `let`

A named `let` binds its name to a loop procedure in a frame of its own, evaluates its initial
expressions in the scope around it, and then evaluates a call there whose arguments are the quoted
values. As long as `quote` denotes the keyword in that frame this is the application of the
procedure to the values as they are.
-/

namespace LiveScheme

open Renaming Comparison

namespace Form

/-- The form `(let name ((name init) ...) form ...)`. -/
def namedLetForm (t t' : Identity) (name : String) (entries : List WrittenBinding)
    (forms : List Value) : Value :=
  .list t (.sym "let" :: .sym name :: .list t' (entries.map WrittenBinding.value) :: forms)

/-- Makes the loop procedure, which sees itself in a frame of its own, and evaluates the initial
expressions; answers the procedure, the scope that it sees and the values. -/
def loopStart (g : Engine) (s : Scope) (name : String) (entries : List WrittenBinding)
    (forms : List Value) : Run (Value × Scope × List Value) := do
  let inner := s.inner (← Run.newFrame [])
  let formals ← Run.newList (entries.map WrittenBinding.formal)
  let proc ← Closure.make formals forms inner (some name)
  Run.define name proc inner
  let values ← g.evalAll s (entries.map WrittenBinding.init)
  return (proc, inner, values)

/-- What a named `let` means: the loop procedure is applied to the initial values. -/
def loopCall (s : Scope) (name : String) (entries : List WrittenBinding) (forms : List Value)
    (g k : Engine) : Run Value := do
  let (proc, _, values) ← loopStart g s name entries forms
  k.apply proc values

/-- The expressions are the quoted values. -/
def Quoted : List Value → List Value → Prop :=
  List.Forall₂ fun e v => ∃ t, e = .list t [.sym "quote", v]

theorem exists_quoteAll (values : List Value) (m : Machine) :
    ∃ quoted, quoteAll values m = .ok quoted { m with nextTag := m.nextTag + values.length } ∧
      Quoted quoted values := by
  induction values generalizing m with
  | nil => exact ⟨[], rfl, .nil⟩
  | cons v rest ih =>
    obtain ⟨quoted, hquoted, hrest⟩ := ih { m with nextTag := m.nextTag + 1 }
    refine ⟨.list (.fresh m.nextTag) [.sym "quote", v] :: quoted, ?_, .cons ⟨_, rfl⟩ hrest⟩
    have hfirst : Run.newList [.sym "quote", v] m = .ok (.list (.fresh m.nextTag) [.sym "quote", v])
        { m with nextTag := m.nextTag + 1 } := rfl
    rw [quoteAll, bind_of_ok hfirst, bind_of_ok hquoted, List.length_cons]
    simp only [Nat.add_assoc, Nat.add_comm 1]
    rfl

theorem evalAll_quoted {quoted values : List Value} (h : Quoted quoted values) {s : Scope}
    {m : Machine} (hquote : values = [] ∨
      Run.keyword? (.sym "quote") s m = .ok (some (.form .quote)) m) (allowance : Nat) :
    (Engine.ofAllowance (allowance + 1)).evalAll s quoted m = .ok values m := by
  induction h with
  | nil => rfl
  | cons hfirst _ ih =>
    obtain ⟨t, rfl⟩ := hfirst
    have hkeyword := hquote.resolve_left nofun
    rw [Engine.evalAll, bind_of_ok (Engine.eval_keyword hkeyword allowance t _),
      bind_of_ok (ih (.inr hkeyword))]
    rfl

theorem namedLet_written (g : Engine) (s : Scope) (name : String) (t : Identity)
    (entries : List WrittenBinding) (forms : List Value) :
    namedLet g s name (.list t (entries.map WrittenBinding.value)) forms =
      (do
        let (proc, inner, values) ← loopStart g s name entries forms
        let args ← quoteAll values
        return .again (← Run.newList (proc :: args)) inner) := by
  have hformals : (entries.map WrittenBinding.binding).map (fun b => (Node.sym b.name : Value)) =
      entries.map WrittenBinding.formal := List.map_map
  unfold namedLet loopStart
  simp only [letBindings_written, initials_written, hformals, pure_bind, bind_assoc]

section Renaming

variable {ρ : Comparison} {lax : Bool} {g g' k k' : Engine}

theorem follows_loopStart (hg : g.Follows ρ lax g') (s : Scope) (name : String)
    (entries : List WrittenBinding) (forms : List Value) :
    ρ.Follows lax (loopStart g s name entries forms)
      (loopStart g' s name (ρ.on entries) (ρ.on forms)) := by
  unfold loopStart
  rw [inits_on, formals_on]
  refine .bind_fixed (keeps_newFrame []) fun frame => ?_
  refine .bind (keeps_newList _) fun formals => ?_
  refine .bind (Closure.follows_make formals forms _ _) fun proc => ?_
  refine .bind (keeps_define name proc _) fun _ => ?_
  exact .bind (hg.evalAll s _) fun values => .pure rfl

theorem follows_loopCall (hg : g.Follows ρ lax g') (hk : k.Follows ρ lax k') (s : Scope)
    (name : String) (entries : List WrittenBinding) (forms : List Value) :
    ρ.Follows lax (loopCall s name entries forms g k)
      (loopCall s name (ρ.on entries) (ρ.on forms) g' k') :=
  .bind (follows_loopStart hg s name entries forms) fun (proc, _, values) => hk.apply proc values

end Renaming

section Application

variable {s : Scope} {name : String} {entries : List WrittenBinding} {forms : List Value}
  {m : Machine}

theorem lasting_loopCall (s : Scope) (name : String) (entries : List WrittenBinding)
    (forms : List Value) : LastingBoth (loopCall s name entries forms) := by
  intro t p g g' k k' hg hk
  have hcall := follows_loopCall hg hk s name entries forms
  rwa [on_same, on_same] at hcall

/-- The start of the loop answers the closure that it makes, and as many values as there are
bindings. -/
theorem exists_closure_of_loopStart {g : Engine} (hg : g.Moves) {proc : Value} {inner : Scope}
    {values : List Value} {n : Machine}
    (h : loopStart g s name entries forms m = .ok (proc, inner, values) n) :
    values.length = entries.length ∧ ∃ id, proc = .closure id ∧ id < n.closures.size := by
  obtain ⟨frame, m₁, -, h⟩ := exists_of_bind_ok h
  obtain ⟨formals, m₂, -, h⟩ := exists_of_bind_ok h
  obtain ⟨made, m₃, hmade, h⟩ := exists_of_bind_ok h
  obtain ⟨u, m₄, hdefine, h⟩ := exists_of_bind_ok h
  obtain ⟨answers, m₅, hanswers, h⟩ := exists_of_bind_ok h
  cases h
  obtain ⟨id, rfl, hid⟩ := Closure.exists_place_of_make hmade
  have hdefined := Run.Moves.define name (.closure id) (s.inner frame) m₃
  have hevaluated := (hg.tame.evalAll s (entries.map WrittenBinding.init)).moves m₄
  rw [Run.after_of_ok hdefine] at hdefined
  rw [Run.after_of_ok hanswers] at hevaluated
  have hplaces := (hdefined.trans hevaluated).outgrows.places
  exact ⟨by rw [Engine.length_of_evalAll hanswers, List.length_map], id, rfl, hid.trans_le hplaces⟩

/-- On a closed machine the start of the loop answers what is known then. -/
theorem loopStart_of_isClosed (hm : m.IsClosed) (hentries : m.Knows entries)
    (hknown : m.Knows forms) {allowance : Nat} {proc : Value} {inner : Scope} {values : List Value}
    {n : Machine}
    (h : loopStart (.ofAllowance allowance) s name entries forms m = .ok (proc, inner, values) n) :
    n.IsClosed ∧ n.Outgrows m ∧ n.Knows proc ∧ n.Knows values := by
  have hkeeps : ∀ ρ : Comparison, ρ.Fixes m →
      ρ.Keeps false (loopStart (.ofAllowance allowance) s name entries forms) := fun ρ hρ => by
    have hself : Engine.Follows ρ false (.ofAllowance allowance) (.ofAllowance allowance) :=
      Engine.follows_self allowance
    have hstart := follows_loopStart hself s name entries forms
    rwa [hentries _ hρ, hknown _ hρ] at hstart
  have hmoves := (hkeeps ⟨.identity, 0, 0⟩ (fixes_identity m)).moves m
  rw [Run.after_of_ok h] at hmoves
  obtain ⟨hclosed, hanswer⟩ := hm.run hkeeps
  rw [Run.after_of_ok h] at hclosed
  have hknows := hanswer _ _ h
  exact ⟨hclosed, hmoves.outgrows, fun ρ hρ => congrArg Prod.fst (hknows ρ hρ),
    fun ρ hρ => congrArg (·.2.2) (hknows ρ hρ)⟩

/-- In every scope that the loop procedure can see itself in, `quote` denotes the keyword when the
loop starts. -/
def QuotesStart (s : Scope) (name : String) (entries : List WrittenBinding) (forms : List Value)
    (m : Machine) : Prop :=
  ∀ allowance proc inner values n,
    loopStart (.ofAllowance allowance) s name entries forms m = .ok (proc, inner, values) n →
      Run.keyword? (.sym "quote") inner n = .ok (some (.form .quote)) n

theorem eval_quoted_call {id : Nat} (hid : id < m.closures.size) {values quoted : List Value}
    (hquoted : Quoted quoted values)
    (hquote : values = [] ∨ Run.keyword? (.sym "quote") s m = .ok (some (.form .quote)) m)
    (t : Identity) (allowance : Nat) :
    (Engine.ofAllowance (allowance + 2)).eval (.list t (Value.closure id :: quoted)) s m =
      (Engine.ofAllowance (allowance + 1)).apply (.closure id) values m := by
  have hhead : (Engine.ofAllowance (allowance + 1)).eval (.closure id) s m = .ok (.closure id) m :=
    rfl
  refine (Engine.eval_application rfl _ t quoted).trans ?_
  rw [bind_of_ok hhead, bind_of_ok (evalAll_quoted hquoted hquote allowance),
    Engine.callFrom_closure _ _ _ hid]

/-- Quoting the values and calling the procedure from an expression gives out some numbers, and is
otherwise an application within a smaller allowance. -/
theorem exists_matches_quoted_call (hm : m.IsClosed) {id : Nat} (hid : id < m.closures.size)
    {values : List Value} (hproc : m.Knows (Value.closure id)) (hvalues : m.Knows values)
    (hquote : values = [] ∨ Run.keyword? (.sym "quote") s m = .ok (some (.form .quote)) m)
    (allowance : Nat) :
    ∃ ρ : Comparison, ρ.Fixes m ∧ ρ.Matches false
      ((Engine.ofAllowance (allowance + 1)).apply (.closure id) values m)
      ((do
        let args ← quoteAll values
        (Engine.ofAllowance (allowance + 2)).eval (← Run.newList (.closure id :: args)) s :
          Run Value) m) := by
  obtain ⟨quoted, hquoting, hquoted⟩ := exists_quoteAll values m
  let m' : Machine := { m with nextTag := m.nextTag + (values.length + 1) }
  refine hm.exists_matches (values.length + 1) #[] fun ρ hρ hrelated hadmits => ?_
  rw [Array.append_empty] at hrelated
  have hself : Engine.Follows ρ false (.ofAllowance (allowance + 1))
      (.ofAllowance (allowance + 1)) := Engine.follows_self _
  have happly := hself.apply (.closure id) values
  rw [hproc _ hρ, hvalues _ hρ] at happly
  have hquotes : values = [] ∨
      Run.keyword? (.sym "quote") s m' = .ok (some (.form .quote)) m' :=
    hquote.imp_right (keyword?_of_related hrelated (hadmits.mono (happly.moves m)))
  have hlist : Run.newList (.closure id :: quoted)
      { m with nextTag := m.nextTag + values.length } =
        .ok (.list (.fresh (m.nextTag + values.length)) (Value.closure id :: quoted)) m' := rfl
  rw [bind_of_ok hquoting, bind_of_ok hlist, eval_quoted_call (m := m') hid hquoted hquotes]
  exact happly.run hrelated hadmits

theorem eval_namedLetForm
    (hlet : Run.keyword? (.sym "let") s m = .ok (some (.form .letPlain)) m) (t t' : Identity)
    (allowance : Nat) :
    (Engine.ofAllowance (allowance + 1)).eval (namedLetForm t t' name entries forms) s m =
      (do
        let (proc, inner, values) ← loopStart (.ofAllowance allowance) s name entries forms
        let args ← quoteAll values
        (Engine.ofAllowance allowance).eval (← Run.newList (proc :: args)) inner) m := by
  unfold namedLetForm
  rw [Engine.eval_keyword hlet, SpecialForm.run, letPlain, namedLet_written]
  simp only [bind_assoc, pure_bind, Engine.finish]

theorem exists_matches_namedLetForm (hm : m.IsClosed) (hentries : m.Knows entries)
    (hknown : m.Knows forms)
    (hlet : Run.keyword? (.sym "let") s m = .ok (some (.form .letPlain)) m)
    (hquote : entries = [] ∨ QuotesStart s name entries forms m) (t t' : Identity)
    (allowance : Nat) :
    ∃ ρ : Comparison, ρ.Fixes m ∧ ρ.Matches false
      (loopCall s name entries forms (.ofAllowance (allowance + 2))
        (.ofAllowance (allowance + 1)) m)
      ((Engine.ofAllowance (allowance + 3)).eval (namedLetForm t t' name entries forms) s m) := by
  rw [eval_namedLetForm hlet, loopCall]
  cases hstart : loopStart (.ofAllowance (allowance + 2)) s name entries forms m with
  | error stop n =>
    rw [bind_of_error hstart, bind_of_error hstart]
    exact ⟨.same 0 0, fixes_identity m, .error (related_same 0 0 n)⟩
  | ok start n =>
    obtain ⟨proc, inner, values⟩ := start
    obtain ⟨hclosed, houtgrows, hproc, hvalues⟩ := loopStart_of_isClosed hm hentries hknown hstart
    obtain ⟨hlength, id, rfl, hid⟩ :=
      exists_closure_of_loopStart (Engine.moves_ofAllowance _) hstart
    have hquotes : values = [] ∨
        Run.keyword? (.sym "quote") inner n = .ok (some (.form .quote)) n := by
      refine hquote.imp (fun h => ?_) fun h => h _ _ _ _ _ hstart
      exact List.eq_nil_of_length_eq_zero (hlength.trans (congrArg List.length h))
    obtain ⟨ρ, hρ, hmatches⟩ :=
      exists_matches_quoted_call hclosed hid hproc hvalues hquotes allowance
    refine ⟨ρ, hρ.mono houtgrows, ?_⟩
    rw [bind_of_ok hstart, bind_of_ok hstart]
    exact hmatches

/-- A named `let` ends as the application of its loop procedure to the initial values does, but for
what was given out on the way, where `quote` denotes the keyword in the frame of the loop; without
bindings it need not do so. -/
theorem agreeOn_loopCall_namedLetForm (hm : m.IsClosed) (hentries : m.Knows entries)
    (hknown : m.Knows forms)
    (hlet : Run.keyword? (.sym "let") s m = .ok (some (.form .letPlain)) m)
    (hquote : entries = [] ∨ QuotesStart s name entries forms m) (t t' : Identity) :
    AgreeOn m (fun g => loopCall s name entries forms g g) fun g =>
      g.eval (namedLetForm t t' name entries forms) s := by
  have hlasting : Lasting fun g => loopCall s name entries forms g g :=
    fun t p _ _ hg => lasting_loopCall s name entries forms t p hg hg
  refine .of_core (lasting_loopCall s name entries forms) hlasting (lasting_eval _ s) 0 1
    (fun a => a - 1) (fun a => ?_) (fun a _ => rfl) fun a ha => ?_
  · omega
  · obtain ⟨allowance, rfl⟩ := Nat.exists_eq_add_of_le' ha
    exact exists_matches_namedLetForm hm hentries hknown hlet hquote t t' allowance

/-- A loop over a symbol, which is not looked up. -/
theorem ends_namedLetForm_symbol :
    (Machine.initial "2.10" true .empty).IsClosed ∧
    QuotesStart (.ofModule Machine.defaultId) "loop"
      [⟨.symbolName, "x", .list .symbolName [.sym "quote", .sym "a"]⟩] [.sym "x"]
      (.initial "2.10" true .empty) ∧
    ∃ ending, Ends
      (fun g => g.eval
        (namedLetForm .symbolName .symbolName "loop"
          [⟨.symbolName, "x", .list .symbolName [.sym "quote", .sym "a"]⟩] [.sym "x"])
        (.ofModule Machine.defaultId)) (.initial "2.10" true .empty) ending ∧
      ending.outcome = .ok (.sym "a") := by
  let m := Machine.initial "2.10" true .empty
  let s := Scope.ofModule Machine.defaultId
  let entries : List WrittenBinding :=
    [⟨.symbolName, "x", .list .symbolName [.sym "quote", .sym "a"]⟩]
  have hclosed := Machine.isClosed_initial "2.10" true .empty
  have hlet : Run.keyword? (.sym "let") s m = .ok (some (.form .letPlain)) m := rfl
  have hquote : QuotesStart s "loop" entries [.sym "x"] m :=
    fun allowance proc inner values n h => by
      cases allowance with
      | zero => cases h
      | succ allowance =>
        cases h
        rfl
  have hentries : m.Knows entries := fun _ _ => rfl
  have hforms : m.Knows ([.sym "x"] : List Value) := fun _ _ => rfl
  have hagree := agreeOn_loopCall_namedLetForm hclosed hentries hforms hlet (.inr hquote)
    .symbolName .symbolName
  have hcall : ∃ n, loopCall s "loop" entries [.sym "x"] (.ofAllowance 4) (.ofAllowance 4) m =
      .ok (.sym "a") n := ⟨_, rfl⟩
  obtain ⟨n, hcall⟩ := hcall
  obtain ⟨ending, hends, ρ, -, houtcome, -⟩ :=
    hagree.forth ⟨.ok (.sym "a"), n⟩ ⟨4, congrArg Ending.ofResult hcall, nofun⟩
  exact ⟨hclosed, hquote, ending, hends, houtcome⟩

end Application

end Form

end LiveScheme
