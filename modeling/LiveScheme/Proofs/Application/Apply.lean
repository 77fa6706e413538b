import LiveScheme.Proofs.Renaming.Endings

/-!
# Application to a list of arguments

A procedure applied to a list of arguments does what a call of it with these arguments does. It is
called in the current module, whatever the scope that applies it, and few procedures can tell:
evaluation, expansion and the question for the current module look at the scope of their call, all
others do the same in every scope.
-/

namespace LiveScheme

/-- Calls a procedure from an expression in a scope and answers what the call comes to. -/
def Engine.callFrom (g : Engine) (s : Scope) (proc : Value) (args : List Value) : Run Value := do
  g.finish (← g.call proc s args)

/-- A procedure that can be called on the machine: one of its closures, or a primitive. -/
def Machine.HasProcedure (m : Machine) : Value → Prop
  | .closure id => id < m.closures.size
  | .primitive _ => True
  | _ => False

/-- Nothing that the procedure looks at, given the arguments, differs between the scopes. -/
def Builtin.Indifferent (b : Builtin) (args : List Value) (s s' : Scope) : Prop :=
  match b with
  | .currentModule => args.length = 0 → s.home = s'.home
  | .eval => args.length = 1 → s.home = s'.home
  | .macroExpand | .macroExpandOnce => args.length = 1 → s = s'
  | _ => True

/-- Only some built-in procedures look at the scope of their call. -/
def Value.Indifferent (proc : Value) (args : List Value) (s s' : Scope) : Prop :=
  match proc with
  | .primitive (.builtin b) => b.Indifferent args s s'
  | _ => True

theorem Primitive.checkCount_of_ne {low : Nat} {args : List Value} (h : args.length ≠ low)
    (who : String) :
    checkCount who low (some low) args = Run.fail (.arity who low (some low) args.length) := by
  have hoff : (args.length < low || (some low).any (· < args.length)) = true := by
    rw [Option.any_some, Bool.or_eq_true, decide_eq_true_eq, decide_eq_true_eq]
    omega
  exact if_pos hoff

namespace Builtin

theorem call_eq_of_indifferent {b : Builtin} {args : List Value} {s s' : Scope}
    (h : b.Indifferent args s s') (g : Engine) : b.call g s args = b.call g s' args := by
  cases b
  case currentModule =>
    by_cases hcount : args.length = 0
    · simp only [call, h hcount]
    · simp only [call, Primitive.constant, Primitive.checkCount_of_ne hcount]
      rfl
  case eval =>
    rcases args with _ | ⟨e, _ | ⟨home, _ | ⟨other, rest⟩⟩⟩
    · rfl
    · have hhome : s.home = s'.home := h rfl
      simp only [call, Primitive.eval, hhome]
    · rfl
    · rfl
  case macroExpand =>
    by_cases hcount : args.length = 1
    · rw [h hcount]
    · simp only [call, Primitive.expand, Primitive.checkCount_of_ne hcount]
      rfl
  case macroExpandOnce =>
    by_cases hcount : args.length = 1
    · rw [h hcount]
    · simp only [call, Primitive.expand, Primitive.checkCount_of_ne hcount]
      rfl
  all_goals rfl

end Builtin

namespace Engine

theorem callFrom_primitive (g : Engine) (s : Scope) (p : Primitive) (args : List Value) :
    g.callFrom s (.primitive p) args = p.call g s args := by
  change (p.call g s args >>= fun v => pure (.done v)) >>= (fun next => g.finish next) = _
  simp only [bind_assoc, pure_bind, finish, bind_pure]

theorem callFrom_apply (g : Engine) (s : Scope) (proc : Value) (t : Identity)
    (args : List Value) :
    g.callFrom s (.primitive (.builtin .apply)) [proc, .list t args] = g.apply proc args := by
  rw [callFrom_primitive]
  rfl

/-- A closure is applied within the allowance in which it is called. -/
theorem callFrom_closure (g : Engine) (s : Scope) {id : Nat} (args : List Value) {m : Machine}
    (hid : id < m.closures.size) :
    g.callFrom s (.closure id) args m = g.apply (.closure id) args m := by
  have hclosure : Run.closure? (.closure id) m = .ok (some m.closures[id]) m := by
    rw [← Array.getElem?_eq_getElem hid]
    rfl
  have hcall : g.call (.closure id) s args m =
      (m.closures[id].bind args >>= fun s => pure (.again m.closures[id].body s)) m := by
    unfold call
    rw [bind_of_ok hclosure]
  unfold apply callFrom
  rw [bind_of_ok hclosure]
  change (g.call (.closure id) s args >>= fun next => g.finish next) m = _
  simp only [bind, EStateM.bind, hcall]
  cases m.closures[id].bind args m <;> rfl

theorem callFrom_of_indifferent {proc : Value} {args : List Value} {s s' : Scope}
    (h : proc.Indifferent args s s') (g : Engine) :
    g.callFrom s proc args = g.callFrom s' proc args := by
  cases proc with
  | object kind parts =>
    cases parts with
    | nil =>
      cases kind with
      | primitive p =>
        rw [callFrom_primitive, callFrom_primitive]
        cases p with
        | builtin b => exact Builtin.call_eq_of_indifferent h g
        | service connection service => rfl
      | _ => rfl
    | cons part parts => cases kind <;> rfl
  | _ => rfl

/-- A primitive is applied at the cost of one more step than it is called. -/
theorem ends_apply_primitive_iff (p : Primitive) (args : List Value) (m : Machine)
    (ending : Ending) :
    Ends (fun g => g.apply (.primitive p) args) m ending ↔
      Ends (fun g => p.call g (.ofModule m.current) args) m ending := by
  constructor
  · rintro ⟨allowance, hending, hends⟩
    cases allowance with
    | zero =>
      subst hending
      exact absurd rfl hends
    | succ allowance => exact ⟨allowance, hending, hends⟩
  · rintro ⟨allowance, hending, hends⟩
    exact ⟨allowance + 1, hending, hends⟩

/-- Applying a procedure to a list of arguments comes to what calling it with them in the current
module comes to, and in the scope that applies it as well unless the procedure can tell the two
apart. -/
theorem ends_apply_iff {m : Machine} {proc : Value} (hproc : m.HasProcedure proc) (s : Scope)
    (t : Identity) (args : List Value) (ending : Ending) :
    (Ends (fun g => g.callFrom s (.primitive (.builtin .apply)) [proc, .list t args]) m ending ↔
      Ends (fun g => g.callFrom (.ofModule m.current) proc args) m ending) ∧
    (proc.Indifferent args s (.ofModule m.current) →
      (Ends (fun g => g.callFrom s (.primitive (.builtin .apply)) [proc, .list t args]) m ending ↔
        Ends (fun g => g.callFrom s proc args) m ending)) := by
  have hcurrent : Ends (fun g => g.apply proc args) m ending ↔
      Ends (fun g => g.callFrom (.ofModule m.current) proc args) m ending := by
    cases proc with
    | object kind parts =>
      cases parts with
      | nil =>
        cases kind with
        | closure id => simp only [Ends, callFrom_closure _ _ _ hproc]
        | primitive p =>
          simp only [callFrom_primitive]
          exact ends_apply_primitive_iff p args m ending
        | _ => exact hproc.elim
      | cons part parts => cases kind <;> exact hproc.elim
    | _ => exact hproc.elim
  simp only [callFrom_apply]
  refine ⟨hcurrent, fun h => ?_⟩
  simp only [callFrom_of_indifferent h]
  exact hcurrent

/-- Evaluation in a named module is the same wherever it is asked for. -/
theorem ends_apply_iff_namedModule :
    (Machine.initial "2.10" true .empty).HasProcedure (.primitive (.builtin .eval)) ∧
    (Value.primitive (.builtin .eval)).Indifferent [.sym "car", .sym "stklos"]
      (.ofModule Machine.schemeId) (.ofModule Machine.defaultId) ∧
    Ends (fun g => g.callFrom (.ofModule Machine.schemeId) (.primitive (.builtin .apply))
        [.primitive (.builtin .eval), .list .symbolName [.sym "car", .sym "stklos"]])
      (Machine.initial "2.10" true .empty)
      ⟨.ok (.primitive (.builtin .car)), Machine.initial "2.10" true .empty⟩ := by
  have hproc : (Machine.initial "2.10" true .empty).HasProcedure (.primitive (.builtin .eval)) :=
    trivial
  have hindifferent : (Value.primitive (.builtin .eval)).Indifferent [.sym "car", .sym "stklos"]
      (.ofModule Machine.schemeId) (.ofModule Machine.defaultId) := fun h => nomatch h
  have hfound : (Machine.initial "2.10" true .empty).moduleFor? (.sym "stklos") =
      some Machine.defaultId := by decide +kernel
  have hhome : Run.resolveModule (.sym "stklos") (.initial "2.10" true .empty) =
      .ok Machine.defaultId (.initial "2.10" true .empty) := by
    unfold Run.resolveModule
    rw [Run.get_bind, hfound]
    rfl
  have hcall : (ofAllowance 1).callFrom (.ofModule Machine.schemeId) (.primitive (.builtin .eval))
      [.sym "car", .sym "stklos"] (.initial "2.10" true .empty) =
        .ok (.primitive (.builtin .car)) (.initial "2.10" true .empty) := by
    rw [callFrom_primitive]
    exact bind_of_ok hhome
  refine ⟨hproc, hindifferent, ((ends_apply_iff hproc _ _ _ _).2 hindifferent).mpr ?_⟩
  exact ⟨1, congrArg Ending.ofResult hcall, nofun⟩

end Engine

end LiveScheme
