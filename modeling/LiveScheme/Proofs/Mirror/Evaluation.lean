import LiveScheme.Proofs.Mirror.Forms
import LiveScheme.Proofs.Mirror.Primitives

/-!
# Watched evaluation

A watch says which machines, calls, filled templates and answers it lets pass, and an evaluation
under a watch gives up at the first that it does not. Under a watch that lets everything pass it is
plain evaluation. Under two watches of which the second lets pass what the first does, evaluation
mirrors itself; this is the one induction over the evaluator, and it holds of every comparison of
runs whose machines obey the laws.
-/

namespace LiveScheme

structure Watch where
  machines : Machine → Bool
  calls : Value → List Value → Bool
  templates : Value → Bool
  answers : Value → Bool

/-- The watch that lets everything pass. -/
def Watch.idle : Watch := ⟨fun _ => true, fun _ _ => true, fun _ => true, fun _ => true⟩

/-- Gives up unless the condition holds. -/
def Run.demand (b : Bool) : Run Unit := if b then pure () else throw .endless

namespace SpecialForm

def passes (w : Watch) : SpecialForm → Step → Bool
  | .quasiquote, .done v => w.templates v
  | _, _ => true

def runWatched (w : Watch) (g : Engine) (s : Scope) (args : List Value) (f : SpecialForm) :
    Run Step := do
  let step ← f.run g s args
  Run.demand (f.passes w step)
  return step

end SpecialForm

namespace Engine

def callWatched (w : Watch) (g : Engine) (proc : Value) (s : Scope) (args : List Value) :
    Run Step := do
  Run.demand (w.calls proc args)
  g.call proc s args

def stepWatched (w : Watch) (g : Engine) (s : Scope) (e : Value) : Run Step :=
  match e with
  | .list _ (head :: args) => do
    match ← Run.keyword? head s with
    | some (.form f) => f.runWatched w g s args
    | some (.expander _ _ transformer) => do
      return .again (← g.apply (.closure transformer) args) s
    | none => do
      let proc ← g.eval head s
      g.callWatched w proc s (← g.evalAll s args)
  | e => g.step s e

end Engine

def performWatched (w : Watch) : Nat → Task → Run Value
  | 0, _ => throw .endless
  | fuel + 1, .call p s args => do
    Run.demand (w.calls (.primitive p) args)
    let v ← p.call ⟨fuel, performWatched w fuel⟩ s args
    Run.demand (w.answers v)
    return v
  | fuel + 1, .eval e s => do
    Run.demand (w.machines (← get))
    match ← Engine.stepWatched w ⟨fuel, performWatched w fuel⟩ s e with
    | .done v => do
      Run.demand (w.answers v)
      return v
    | .again e s => performWatched w fuel (.eval e s)

def Engine.watched (w : Watch) (allowance : Nat) : Engine := ⟨allowance, performWatched w allowance⟩

section Idle

@[simp] theorem Run.demand_true : Run.demand true = pure () := rfl

@[simp] theorem Watch.machines_idle (m : Machine) : Watch.idle.machines m = true := rfl

@[simp] theorem Watch.calls_idle (proc : Value) (args : List Value) :
    Watch.idle.calls proc args = true := rfl

@[simp] theorem Watch.answers_idle (v : Value) : Watch.idle.answers v = true := rfl

@[simp] theorem SpecialForm.passes_idle (f : SpecialForm) (step : Step) :
    f.passes .idle step = true := by
  cases f <;> cases step <;> rfl

theorem SpecialForm.runWatched_idle (g : Engine) (s : Scope) (args : List Value)
    (f : SpecialForm) : f.runWatched .idle g s args = f.run g s args := by
  simp [runWatched]

theorem Engine.stepWatched_idle (g : Engine) (s : Scope) (e : Value) :
    g.stepWatched .idle s e = g.step s e := by
  unfold Engine.stepWatched
  split
  · simp only [SpecialForm.runWatched_idle, callWatched, Watch.calls_idle, Run.demand_true,
      pure_bind]
    rfl
  · rfl

/-- Under the idle watch evaluation goes on as it is. -/
theorem performWatched_idle (fuel : Nat) : performWatched .idle fuel = performWithin fuel := by
  induction fuel with
  | zero => rfl
  | succ fuel ih =>
    funext t
    cases t with
    | call p s args => simp [performWatched, performWithin, ih]
    | eval e s =>
      simp only [performWatched, performWithin, ih, Watch.machines_idle, Watch.answers_idle,
        Run.demand_true, Engine.stepWatched_idle, pure_bind]
      rfl

theorem Engine.watched_idle (allowance : Nat) :
    watched .idle allowance = ofAllowance allowance := by
  rw [watched, performWatched_idle]
  rfl

end Idle

open Link

variable {L : Link} {w w' : Watch}

/-- Two watches let the same pass, or else the first one is stricter and that is forgiven. -/
def Link.Tells (L : Link) (b b' : Bool) : Prop := b' = b ∨ b = false ∧ L.Forgiving

/-- What it takes that evaluation mirrors itself under two watches. Filled templates that the first
lets pass live up to the standard, and services and calls for the version either mirror themselves
or do not occur. -/
structure Watch.Passes (L : Link) (w w' : Watch) : Prop where
  machines : ∀ {m m'}, L.related m m' → L.Tells (w.machines m) (w'.machines m')
  calls : ∀ {proc args}, Meets L.standard proc → Meets L.standard args →
    L.Tells (w.calls proc args) (w'.calls proc args)
  templates : ∀ {v}, Meets L.standard.draft v → L.Tells (w.templates v) (w'.templates v) ∧
    (w.templates v = true → Meets L.standard v)
  answers : ∀ {v}, Meets L.standard v → L.Tells (w.answers v) (w'.answers v)
  services : L.standard.services = true → ∀ {g g' : Engine}, g.Mirrors L g' →
    ∀ (connection : Nat) {args : List Value} (service : Service), Meets L.standard args →
      L.Mirrors (service.call g connection args) (service.call g' connection args)
  version : ∀ {args}, w.calls (.primitive (.builtin .version)) args = true →
    L.Keeps (Primitive.version args)

section Demands

variable {α : Type}

/-- The second run goes on where the first one does. -/
theorem follows_demand {P : α → Prop} {b b' : Bool} {x x' : Run α} (hb : L.Tells b b')
    (hx : b = true → L.Follows P x x') :
    L.Follows P (Run.demand b >>= fun _ => x) (Run.demand b' >>= fun _ => x') := by
  cases b with
  | true =>
    obtain rfl | ⟨hfalse, -⟩ := hb
    · exact hx rfl
    · cases hfalse
  | false =>
    obtain rfl | ⟨-, hL⟩ := hb
    · exact .throw _
    · exact hL.follows _

theorem mirrors_demandMachine [Checkable α] {p p' : Machine → Bool} {x x' : Run α}
    (hp : ∀ {m m'}, L.related m m' → L.Tells (p m) (p' m')) (hx : L.Mirrors x x') :
    L.Mirrors (get >>= fun m => Run.demand (p m) >>= fun _ => x)
      (get >>= fun m => Run.demand (p' m) >>= fun _ => x') where
  ok hm := (follows_demand (hp hm) fun _ => hx).ok hm
  error hm := (follows_demand (hp hm) fun _ => hx).error hm
  lostOk {m _ _} := (follows_demand (b := p m) (.inl rfl) fun _ => hx).lostOk
  lostError {m _ _} := (follows_demand (b := p m) (.inl rfl) fun _ => hx).lostError

end Demands

section Evaluation

variable [L.Lawful] {g g' : Engine}

theorem Primitive.mirrors_call (hw : w.Passes L w') (hg : g.Mirrors L g') (s : Scope)
    {args : List Value} {p : Primitive} (hp : Meets L.standard (Value.primitive p))
    (hargs : Meets L.standard args) (hcall : w.calls (.primitive p) args = true) :
    L.Mirrors (p.call g s args) (p.call g' s args) := by
  cases p with
  | builtin b =>
    by_cases hb : b = .version
    · subst hb
      exact hw.version hcall
    · exact b.mirrors_call hg s hargs hb
  | service connection service =>
    exact hw.services (meets_object.mp hp).1 hg connection service hargs

theorem SpecialForm.mirrors_run (hg : g.Mirrors L g') (s : Scope) {args : List Value}
    (hargs : Meets L.standard args) {f : SpecialForm} (hf : f ≠ .quasiquote) :
    L.Mirrors (f.run g s args) (f.run g' s args) := by
  cases f with
  | quasiquote => exact absurd rfl hf
  | quote =>
    unfold run
    dsimp only
    split
    · exact .pure (meets_cons.mp hargs).1
    · exact .fail _
  | lambda =>
    unfold run
    dsimp only
    split
    · next formals form forms =>
      obtain ⟨hformals, hforms⟩ := meets_cons.mp hargs
      exact .bind (Closure.keeps_make hformals hforms s none) fun _ h => .pure h
    · exact .fail _
  | define => exact Form.mirrors_define hg s hargs
  | assign => exact Form.mirrors_assign hg s hargs
  | defineMacro => exact Form.mirrors_defineMacro hg s hargs
  | conditional => exact Form.mirrors_conditional hg s hargs
  | begin => exact hg.body s hargs
  | cond => exact Form.mirrors_cond hg s hargs
  | case => exact Form.mirrors_case hg s hargs
  | and => exact Form.mirrors_and hg s hargs
  | or => exact Form.mirrors_or hg s hargs
  | whenTrue => exact Form.mirrors_whenTrue hg s hargs
  | unlessTrue => exact Form.mirrors_unlessTrue hg s hargs
  | letPlain => exact Form.mirrors_letPlain hg s hargs
  | letStar => exact Form.mirrors_letStar hg s hargs
  | letrec => exact Form.mirrors_letrec hg s hargs
  | letrecStar => exact Form.mirrors_letrec hg s hargs
  | defineModule => exact Form.mirrors_defineModule hg s hargs
  | selectModule => exact Form.mirrors_selectModule g g' s args
  | exportNames => exact Form.mirrors_exportNames g g' s args
  | importModules => exact Form.mirrors_importModules g g' s args
  | defineLibrary => exact Form.mirrors_defineLibrary hg s hargs

theorem SpecialForm.mirrors_runWatched (hw : w.Passes L w') (hg : g.Mirrors L g') (s : Scope)
    {args : List Value} (hargs : Meets L.standard args) (f : SpecialForm) :
    L.Mirrors (f.runWatched w g s args) (f.runWatched w' g' s args) := by
  by_cases hf : f = .quasiquote
  · subst hf
    unfold runWatched run
    dsimp only
    split
    · next v =>
      have hfilled : L.Follows (fun step => ∃ v, Meets L.standard.draft v ∧ step = Step.done v)
          (do return .done (← Quasiquote.template g s 1 v))
          (do return .done (← Quasiquote.template g' s 1 v)) :=
        .bind (Quasiquote.follows_template hg s 1 (meets_cons.mp hargs).1) fun v hv =>
          .pure ⟨v, hv, rfl⟩
      refine hfilled.bind ?_
      rintro _ ⟨v, hv, rfl⟩
      obtain ⟨htells, hmeets⟩ := hw.templates hv
      exact follows_demand htells fun h => .pure (hmeets h)
    · exact .throw _
  · refine .bind (mirrors_run hg s hargs hf) fun step hstep => ?_
    refine follows_demand (.inl ?_) fun _ => .pure hstep
    cases f <;> first | rfl | exact absurd rfl hf

theorem Engine.Mirrors.callWatched (hw : w.Passes L w') (hg : g.Mirrors L g') {proc : Value}
    (s : Scope) {args : List Value} (hproc : Meets L.standard proc)
    (hargs : Meets L.standard args) :
    L.Mirrors (g.callWatched w proc s args) (g'.callWatched w' proc s args) := by
  refine follows_demand (hw.calls hproc hargs) fun hcall => ?_
  refine .bind (Lawful.closure? proc) fun c hc => ?_
  cases c with
  | some c =>
    exact .bind (c.keeps_bind hargs) fun s _ => .pure (meets_some.mp hc).2
  | none =>
    dsimp only
    split
    · exact .bind (Primitive.mirrors_call hw hg s hproc hargs hcall) fun _ hv => .pure hv
    · exact .bind (keeps_text _) fun _ _ => .throw _

theorem Engine.Mirrors.stepWatched (hw : w.Passes L w') (hg : g.Mirrors L g') (s : Scope)
    {e : Value} (he : Meets L.standard e) :
    L.Mirrors (g.stepWatched w s e) (g'.stepWatched w' s e) := by
  unfold Engine.stepWatched
  split
  · next tag head args =>
    obtain ⟨hhead, hargs⟩ := meets_cons.mp (meets_list.mp he)
    refine .bind (keeps_keyword? head s) fun k _ => ?_
    split
    · exact SpecialForm.mirrors_runWatched hw hg s hargs _
    · refine .bind (hg.apply ?_ hargs) fun _ h => .pure h
      exact meets_object.mpr ⟨rfl, meets_nil.mpr trivial⟩
    · exact .bind (hg.eval hhead s) fun proc hproc => .bind (hg.evalAll s hargs) fun args hargs =>
        callWatched hw hg s hproc hargs
  · unfold Engine.step
    split
    · exact .bind (Lawful.lookup _ _) fun _ h => .pure h
    · exact .bind (keeps_newList (meets_nil.mpr trivial)) fun _ h => .pure h
    · next tag head args hne => exact absurd rfl (hne tag head args)
    · exact .bind (keeps_text _) fun _ _ => .fail _
    · exact .pure he

/-- Evaluation under one watch mirrors evaluation under the other, within every allowance. -/
theorem mirrors_performWatched (hw : w.Passes L w') (fuel : Nat) :
    Engine.Mirrors L (.watched w fuel) (.watched w' fuel) := by
  induction fuel with
  | zero => exact ⟨rfl, fun t _ => .throw _⟩
  | succ fuel ih =>
    refine ⟨rfl, fun t ht => ?_⟩
    cases t with
    | call p s args =>
      obtain ⟨hp, hargs⟩ := ht
      refine follows_demand (hw.calls hp hargs) fun hcall => ?_
      refine .bind (Primitive.mirrors_call hw ih s hp hargs hcall) fun v hv => ?_
      exact follows_demand (hw.answers hv) fun _ => .pure hv
    | eval e s =>
      refine mirrors_demandMachine hw.machines ?_
      refine .bind (Engine.Mirrors.stepWatched hw ih s ht) fun step hstep => ?_
      cases step with
      | done v => exact follows_demand (hw.answers hstep) fun _ => .pure hstep
      | again e s => exact ih.perform _ hstep

theorem Engine.Mirrors.evalData (hg : g.Mirrors L g') (home : Option Nat) {last : Value}
    {ds : List Datum} (hlast : Meets L.standard last) (hds : Meets L.standard ds) :
    L.Mirrors (g.evalData home last ds) (g'.evalData home last ds) := by
  induction ds generalizing last with
  | nil => exact .pure hlast
  | cons d rest ih =>
    obtain ⟨hd, hrest⟩ := meets_cons.mp hds
    refine .bind (keeps_ofDatum hd) fun e he => ?_
    have hcurrent : ∀ id, L.Mirrors
        (g.eval e (.ofModule (home.getD id)) >>= fun v => g.evalData home v rest)
        (g'.eval e (.ofModule (home.getD id)) >>= fun v => g'.evalData home v rest) := fun id =>
      .bind (hg.eval he _) fun _ hv => ih hv hrest
    exact mirrors_current hcurrent

end Evaluation

end LiveScheme
