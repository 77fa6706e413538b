import LiveScheme.Proofs.Editor.Request
import LiveScheme.Proofs.Machine.Search
import LiveScheme.Proofs.Repl.Answer

/-!
# Requests evaluated

While the current module still resolves the evaluation service and quotation, a request to evaluate
a form is answered with the reply of the service: the request itself prints nothing, and its value
is the reply. The allowance of the request is one step more than that of the service.
-/

namespace LiveScheme

namespace Run

theorem find_ofModule (m : Machine) (name : String) (id : Nat) :
    m.find name (.ofModule id) = (match m.searchVariable name id with
      | .found home => .home home
      | .absent => .absent
      | .endless => .endless) := rfl

/-- A name with a value is looked up as that value. -/
theorem lookup_of_valueIn? {m n : Machine} {name : String} {id home : Nat} {v : Value}
    (h : valueIn? name id m = .ok (some (v, home)) n) :
    lookup name (.ofModule id) m = .ok v m := by
  have hget : (get : Run Machine) m = .ok m m := rfl
  unfold valueIn? at h
  unfold lookup
  rw [bind_of_ok hget] at h ⊢
  rw [find_ofModule]
  cases hs : m.searchVariable name id with
  | found home' =>
    rw [hs] at h
    change EStateM.Result.ok (((m.module home').vars.get? name).map fun v => (v, home')) m = _ at h
    change EStateM.Result.ok (((m.module home').vars.get? name).getD .void) m = _
    cases hv : (m.module home').vars.get? name with
    | none => rw [hv] at h; cases h
    | some w => rw [hv] at h; cases h; rfl
  | absent => rw [hs] at h; cases h
  | endless => rw [hs] at h; cases h

end Run

namespace Machine

/-- A name that is no keyword in the current module has the primitive procedure as its value. -/
structure Resolves (m : Machine) (name : String) (p : Primitive) : Prop where
  notKeyword : Run.keywordIn? name m.current m = .ok none m
  value : ∃ home, Run.valueIn? name m.current m = .ok (some (.primitive p, home)) m

/-- A name that is no keyword in the module has the primitive procedure as its value there. -/
structure ResolvesIn (m : Machine) (id : Nat) (name : String) (p : Primitive) : Prop where
  notKeyword : Run.keywordIn? name id m = .ok none m
  value : ∃ home, Run.valueIn? name id m = .ok (some (.primitive p, home)) m

theorem ResolvesIn.congr {m m' : Machine} {id : Nat} {name : String} {p : Primitive}
    (hm : m.ResolvesIn id name p) (h : m'.modules = m.modules)
    (hk : m'.keywordsAreValues = m.keywordsAreValues) : m'.ResolvesIn id name p := by
  obtain ⟨home, hvalue⟩ := hm.value
  exact ⟨Run.keywordIn?_congr h hk hm.notKeyword, home, Run.valueIn?_congr h hvalue⟩

theorem resolvesIn_current {m : Machine} {name : String} {p : Primitive} :
    m.ResolvesIn m.current name p ↔ m.Resolves name p :=
  ⟨fun h => ⟨h.notKeyword, h.value⟩, fun h => ⟨h.notKeyword, h.value⟩⟩

theorem Resolves.congr {m m' : Machine} {name : String} {p : Primitive} (hm : m.Resolves name p)
    (h : m'.modules = m.modules) (hk : m'.keywordsAreValues = m.keywordsAreValues)
    (hc : m'.current = m.current) : m'.Resolves name p := by
  have hcurrent := (resolvesIn_current.mpr hm).congr h hk
  rw [← hc] at hcurrent
  exact resolvesIn_current.mp hcurrent

/-- The primitive procedure that a name resolves to, if any. -/
def resolved? (m : Machine) (name : String) : Option Primitive :=
  match Run.keywordIn? name m.current m, Run.valueIn? name m.current m with
  | .ok none _, .ok (some (.primitive p, _)) _ => some p
  | _, _ => none

theorem resolved?_eq_some_iff {m : Machine} {name : String} {p : Primitive} :
    m.resolved? name = some p ↔ m.Resolves name p := by
  constructor
  · intro h
    unfold resolved? at h
    split at h
    · next hname hvalue =>
      cases h
      exact ⟨Run.keywordIn?_congr rfl rfl hname, _, Run.valueIn?_congr rfl hvalue⟩
    · cases h
  · intro h
    obtain ⟨home, hvalue⟩ := h.value
    unfold resolved?
    rw [h.notKeyword, hvalue]

instance (m : Machine) (name : String) (p : Primitive) : Decidable (m.Resolves name p) :=
  decidable_of_iff _ resolved?_eq_some_iff

/-- The current module resolves the evaluation service and quotation as they were installed. -/
structure ServesEval (m : Machine) : Prop where
  service : ∃ connection, m.Resolves "geiser:eval" (.service connection .eval)
  quote : Run.keywordIn? "quote" m.current m = .ok (some (.form .quote)) m

theorem ServesEval.congr {m m' : Machine} (hm : m.ServesEval) (h : m'.modules = m.modules)
    (hk : m'.keywordsAreValues = m.keywordsAreValues) (hc : m'.current = m.current) :
    m'.ServesEval := by
  obtain ⟨connection, hservice⟩ := hm.service
  refine ⟨⟨connection, hservice.congr h hk hc⟩, ?_⟩
  rw [hc]
  exact Run.keywordIn?_congr h hk hm.quote

/-- Looks up what a request to evaluate needs. -/
def checksEval (m : Machine) : Bool :=
  match m.resolved? "geiser:eval", Run.keywordIn? "quote" m.current m with
  | some (.service _ .eval), .ok (some (.form .quote)) _ => true
  | _, _ => false

theorem checksEval_iff (m : Machine) : m.checksEval = true ↔ m.ServesEval := by
  constructor
  · intro h
    unfold checksEval at h
    split at h
    · next hservice hquote =>
      exact ⟨⟨_, resolved?_eq_some_iff.mp hservice⟩, Run.keywordIn?_congr rfl rfl hquote⟩
    · cases h
  · intro h
    obtain ⟨connection, hservice⟩ := h.service
    unfold checksEval
    rw [resolved?_eq_some_iff.mpr hservice, h.quote]

instance (m : Machine) : Decidable m.ServesEval := decidable_of_iff _ m.checksEval_iff

end Machine

namespace Engine

variable {n : Nat} {s : Scope} {m m' : Machine}

theorem eval_of_step {e v : Value} (h : (ofAllowance n).step s e m = .ok (.done v) m') :
    (ofAllowance (n + 1)).eval e s m = .ok v m' := by
  exact (bind_of_ok h).trans rfl

theorem eval_quoted {id : Nat} (h : Run.keywordIn? "quote" id m = .ok (some (.form .quote)) m)
    (tag : Identity) (v : Value) :
    (ofAllowance (n + 1)).eval (.list tag [.sym "quote", v]) (.ofModule id) m = .ok v m := by
  apply eval_of_step
  have hkeyword : Run.keyword? (.sym "quote") (.ofModule id) m = .ok (some (.form .quote)) m := h
  unfold step
  dsimp only
  rw [bind_of_ok hkeyword]
  rfl

/-- A call of a primitive procedure by its name. -/
theorem eval_primitive {id : Nat} {name : String} {p : Primitive} (hm : m.ResolvesIn id name p)
    (tag : Identity) {args vs : List Value}
    (hargs : (ofAllowance (n + 1)).evalAll (.ofModule id) args m = .ok vs m) {v : Value}
    (hcall : p.call (ofAllowance (n + 1)) (.ofModule id) vs m = .ok v m') :
    (ofAllowance (n + 2)).eval (.list tag (.sym name :: args)) (.ofModule id) m = .ok v m' := by
  apply eval_of_step
  obtain ⟨owner, hvalue⟩ := hm.value
  have hkeyword : Run.keyword? (.sym name) (.ofModule id) m = .ok none m := hm.notKeyword
  have hhead : (ofAllowance (n + 1)).eval (.sym name) (.ofModule id) m =
      .ok (.primitive p) m := by
    apply eval_of_step
    exact bind_of_ok (Run.lookup_of_valueIn? hvalue)
  have hclosure : Run.closure? (.primitive p) m = .ok none m := rfl
  unfold step
  dsimp only
  rw [bind_of_ok hkeyword]
  dsimp only
  rw [bind_of_ok hhead, bind_of_ok hargs]
  unfold call
  rw [bind_of_ok hclosure]
  exact bind_of_ok hcall

/-- A call of the evaluation service on two arguments. -/
theorem eval_service (hm : m.ServesEval) (tag : Identity) {home form home' form' : Value}
    (hh : (ofAllowance (n + 1)).eval home (.ofModule m.current) m = .ok home' m)
    (hf : (ofAllowance (n + 1)).eval form (.ofModule m.current) m = .ok form' m)
    {r : Reply} {m₁ m₂ : Machine} {v : Value}
    (hr : Service.evalReply (ofAllowance (n + 1)) home' form' m = .ok r m₁)
    (hv : r.value m₁ = .ok v m₂) :
    (ofAllowance (n + 2)).eval (.list tag [.sym "geiser:eval", home, form])
      (.ofModule m.current) m = .ok v m₂ := by
  obtain ⟨connection, hservice⟩ := hm.service
  have hargs : (ofAllowance (n + 1)).evalAll (.ofModule m.current) [home, form] m =
      .ok [home', form'] m := by
    rw [evalAll, bind_of_ok hh, evalAll, bind_assoc, bind_of_ok hf]
    rfl
  have hcount : Service.eval.count 2 2 [home', form'] m = .ok () m := rfl
  refine eval_primitive (Machine.resolvesIn_current.mpr hservice) tag hargs ?_
  unfold Primitive.call Service.call
  dsimp only
  rw [bind_of_ok hcount]
  exact (bind_of_ok hr).trans hv

/-- A new line goes to the innermost capture. -/
theorem eval_newline (hm : m.Resolves "newline" (.builtin .newline)) (tag : Identity) :
    (ofAllowance (n + 2)).eval (.list tag [.sym "newline"]) (.ofModule m.current) m =
      .ok .void { m with console := m.console.write .output "\n" } := by
  have hargs : (ofAllowance (n + 1)).evalAll (.ofModule m.current) [] m = .ok [] m := rfl
  exact eval_primitive (Machine.resolvesIn_current.mpr hm) tag hargs rfl

end Engine

theorem Reply.list_of_value {r : Reply} {v : Value} {m m' : Machine} (h : r.value m = .ok v m') :
    ∃ tag items, v = .list tag items := by
  have hlist : ∀ ds, Run.ofDatum (.list ds) m = .ok v m' → ∃ tag items, v = .list tag items := by
    intro ds h
    obtain ⟨vs, k, hvs, -⟩ := Run.ofData_fresh ds m.nextTag
    rw [Run.ofDatum, bind_of_ok (hvs m rfl)] at h
    cases h
    exact ⟨_, vs, rfl⟩
  cases r with
  | result values output => exact hlist _ h
  | error message => exact hlist _ h

namespace Command

/-- What a constant of a request evaluates to. -/
def unquoted : Value → Value
  | .list _ [_, v] => v
  | v => v

/-- The reply to a request as the service makes it, for the data that the request brings. -/
def evalReply (g : Engine) (home : Option Datum) (form : Datum) : Run Reply := do
  let h ← Run.ofDatum (homeDatum home)
  let f ← Run.ofDatum form.quoted
  let _ ← Run.newTag
  Service.evalReply g (unquoted h) (unquoted f)

end Command

theorem Reply.capture_of_ok {x : Run Value} {v : Value} {m m' : Machine}
    (h : x m.beginCapture = .ok v m') :
    Reply.capture x m =
      .ok (ofValues m'.endCapture v.spread (m'.console.captures.headD "")) m'.endCapture := by
  unfold Reply.capture
  rw [bind_of_ok (Run.capturing_of_ok h)]
  rfl

/-- The output of a captured evaluation leaves the captures around it alone. -/
theorem Reply.captures_capture {x : Run Value} (hx : x.Moves) {m m' : Machine} {r : Reply}
    (h : Reply.capture x m = .ok r m') : m'.console.captures = m.console.captures := by
  have hmoves := hx m.beginCapture
  cases hrun : x m.beginCapture with
  | ok v m₁ =>
    rw [Run.after_of_ok hrun] at hmoves
    rw [Reply.capture_of_ok hrun] at h
    cases h
    exact hmoves.captures_endCapture
  | error stop m₁ =>
    rw [Run.after_of_error hrun] at hmoves
    unfold Reply.capture at h
    rw [bind_of_ok (Run.capturing_of_error hrun)] at h
    dsimp only at h
    cases hmessage : messageOf? stop with
    | some message =>
      rw [hmessage] at h
      cases h
      exact hmoves.captures_endCapture
    | none => rw [hmessage] at h; cases h

namespace Command

variable {n : Nat} {home : Option Datum} {form : Datum} {m m' : Machine} {r : Reply}

theorem ofDatum_quoted {d : Datum} {q : Value} {m₁ m₂ : Machine}
    (h : Run.ofDatum d.quoted m₁ = .ok q m₂) : ∃ tag v, q = .list tag [.sym "quote", v] := by
  obtain ⟨v, k, hv⟩ := Run.ofDatum_ok d m₁
  have hname : Run.ofDatum (.sym "quote") m₁ = .ok (.sym "quote") m₁ := rfl
  rw [Datum.quoted, Run.ofDatum, Run.ofData, Run.ofData, Run.ofData] at h
  simp only [bind_assoc] at h
  rw [bind_of_ok hname, bind_of_ok hv] at h
  cases h
  exact ⟨_, v, rfl⟩

/-- A quoted datum evaluates to the datum. -/
theorem eval_ofDatum_quoted (hm : m.ServesEval) {d : Datum} {q : Value} {m₁ m₂ : Machine}
    (h : Run.ofDatum d.quoted m₁ = .ok q m₂) :
    (Engine.ofAllowance (n + 1)).eval q (.ofModule m.current) m = .ok (unquoted q) m := by
  obtain ⟨tag, v, rfl⟩ := ofDatum_quoted h
  exact Engine.eval_quoted hm.quote tag v

/-- A module name is a constant. -/
theorem eval_homeDatum (hm : m.ServesEval) {h : Value} {m₁ m₂ : Machine}
    (hh : Run.ofDatum (homeDatum home) m₁ = .ok h m₂) :
    (Engine.ofAllowance (n + 1)).eval h (.ofModule m.current) m = .ok (unquoted h) m := by
  unfold homeDatum at hh
  split at hh
  · cases hh
    rfl
  · exact eval_ofDatum_quoted hm hh
  · split at hh
    · exact eval_ofDatum_quoted hm hh
    · cases hh
      rfl

theorem evalForm_evalDatum (hm : m.ServesEval)
    (hr : evalReply (Engine.ofAllowance (n + 1)) home form m.beginCapture = .ok r m') :
    ∃ v k, Repl.evalForm (Engine.ofAllowance (n + 2)) (evalDatum home form) m =
      .ok ([v], "") { m'.endCapture with nextTag := k } ∧
      ∀ m₁ : Machine, m₁.write v = r.datum.write := by
  obtain ⟨h, tag₁, hh, -⟩ := Run.ofDatum_fresh (homeDatum home) m.nextTag
  obtain ⟨f, tag₂, hf, -⟩ := Run.ofDatum_fresh form.quoted tag₁
  -- The request is made before its output is captured, and making it takes the same identities.
  have hrequest : Run.ofDatum (evalDatum home form) m =
      .ok (.list (.fresh tag₂) [.sym "geiser:eval", h, f]) { m with nextTag := tag₂ + 1 } := by
    have hname : Run.ofDatum (.sym "geiser:eval") m = .ok (.sym "geiser:eval") m := rfl
    rw [evalDatum, Run.ofDatum, Run.ofData, Run.ofData, Run.ofData, Run.ofData]
    simp only [bind_assoc]
    rw [bind_of_ok hname, bind_of_ok (hh m rfl), bind_of_ok (hf { m with nextTag := tag₁ } rfl)]
    rfl
  have hservice : Service.evalReply (Engine.ofAllowance (n + 1)) (unquoted h) (unquoted f)
      ({ m with nextTag := tag₂ + 1 } : Machine).beginCapture = .ok r m' := by
    unfold evalReply at hr
    rwa [bind_of_ok (hh m.beginCapture rfl),
      bind_of_ok (hf { m.beginCapture with nextTag := tag₁ } rfl)] at hr
  obtain ⟨v, k, hv, hchars⟩ := Run.ofDatum_fresh r.datum m'.nextTag
  have hserves : (({ m with nextTag := tag₂ + 1 } : Machine).beginCapture).ServesEval :=
    hm.congr rfl rfl rfl
  have heval := Engine.eval_service hserves (.fresh tag₂) (eval_homeDatum hserves (hh m rfl))
    (eval_ofDatum_quoted hserves (hf { m with nextTag := tag₁ } rfl)) hservice (hv m' rfl)
  have hcaptures : m'.console.captures = "" :: m.console.captures :=
    Reply.captures_capture ((Engine.moves_ofAllowance (n + 1)) _) hservice
  refine ⟨v, k, ?_, fun m₁ => ?_⟩
  · obtain ⟨tag, items, rfl⟩ := Reply.list_of_value (hv m' rfl)
    have hform := Repl.evalForm_of_ok hrequest heval
    rw [hform]
    change EStateM.Result.ok ([Node.list tag items], m'.console.captures.headD "") _ = _
    rw [hcaptures]
    rfl
  · exact congrArg String.ofList (hchars m₁.objectText true)

end Command

namespace Repl

/-- The server handles a request by writing the reply and a blank line. -/
theorem handle_evalDatum {n : Nat} {home : Option Datum} {form : Datum} {r opened : Repl}
    (hready : opened.LogsReady) (hconnect : connect r = .ok () opened) {text : String}
    (hread : Datum.readAll (opened.pending ++ text) = .ok [Command.evalDatum home form])
    (hm : opened.machine.ServesEval) {rep : Reply} {m : Machine}
    (hr : Command.evalReply (Engine.ofAllowance (n + 1)) home form opened.machine.beginCapture =
      .ok rep m) :
    ∃ k disk, handle (Engine.ofAllowance (n + 2)) text r =
      .ok (rep.datum.write ++ "\n\n") { opened with
        machine := { m.endCapture with nextTag := k, disk }
        pending := "" } := by
  obtain ⟨v, k, heval, hwrite⟩ := Command.evalForm_evalDatum hm hr
  have hlines : linesOf { m.endCapture with nextTag := k } [v] = rep.datum.write ++ "\n\n" := by
    rw [linesOf, List.map_singleton, hwrite]
    simp [String.append_assoc]
  obtain ⟨disk, hhandle⟩ :=
    handle_form (Engine.moves_ofAllowance (n + 2)) hconnect hready hread heval
  refine ⟨k, disk, ?_⟩
  rw [hhandle, hlines, String.empty_append]

end Repl

end LiveScheme
