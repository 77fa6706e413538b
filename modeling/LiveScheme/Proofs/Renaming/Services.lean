import LiveScheme.Proofs.Machine.Evaluation
import LiveScheme.Proofs.Renaming.Engines

/-!
# Services under a renaming

What an editor is answered is made of texts, names and parts of values, so a service on renamed
arguments follows the service on the arguments. A captured evaluation or an expansion that gives up
gives up the service as well.
-/

namespace LiveScheme

open Renaming Comparison

variable {ρ : Comparison} {lax : Bool} {g g' : Engine}

namespace Reply

theorem follows_value (r : Reply) : ρ.Keeps lax r.value := keeps_ofDatum _

theorem ofValues_on {m m' : Machine} (hm : ρ.Related m m') (values : List Value) (output : String) :
    ofValues m' (ρ.on values) output = ofValues m values output := by
  have hwritten : (ρ.on values).map m'.write = values.map m.write := by
    induction values with
    | nil => rfl
    | cons v rest ih => rw [on_cons, List.map_cons, ih, hm.write]; rfl
  rw [ofValues, isEmpty_on, hwritten]
  rfl

theorem follows_capture {x x' : Run Value} (hx : ρ.Follows lax x x') :
    ρ.Follows lax (capture x) (capture x') := by
  refine follows_capturing hx (fun ended => ?_) fun _ => rfl
  obtain ⟨outcome, printed⟩ := ended
  cases outcome with
  | ok v =>
    exact .reading fun m m' hm => by
      rw [Value.spread_on, ofValues_on hm]
      rfl
  | error stop =>
    cases stop with
    | error e => exact .pure rfl
    | fault f => exact .pure rfl
    | exit code => exact .throw _
    | endless => exact .throw _

end Reply

namespace Comparison

theorem keeps_connection (id : Nat) : ρ.Keeps lax (Run.connection id) :=
  .reading fun m m' hm => by rw [hm.connections]; rfl

theorem Related.modifyConnection {m m' : Machine} (hm : ρ.Related m m') (id : Nat)
    (f : Connection → Connection) :
    ρ.Related { m with connections := m.connections.modify id f }
      { m' with connections := m'.connections.modify id f } :=
  { hm with connections := by rw [hm.connections] }

theorem Related.replaceDisk {m m' : Machine} (hm : ρ.Related m m') (disk : Disk) :
    ρ.Related { m with disk } { m' with disk } :=
  { hm with disk := rfl }

theorem keeps_openLog (id : Nat) (path : String) : ρ.Keeps lax (Run.openLog id path) := by
  refine ⟨.openLog id path, fun {m m'} hm _ => ?_⟩
  cases hz : path.toList.contains '\x00' with
  | true =>
    unfold Run.openLog Run.appendTo
    rw [hz]
    exact .error hm
  | false =>
    have happend := Run.appendTo_of_noZero "" m hz
    have happend' := Run.appendTo_of_noZero "" m' hz
    rw [hm.disk] at happend'
    unfold Run.openLog
    cases hd : m.disk.append path "" with
    | error problem =>
      rw [hd] at happend happend'
      rw [bind_of_error happend, bind_of_error happend']
      exact .error hm
    | ok disk =>
      rw [hd] at happend happend'
      rw [bind_of_ok happend, bind_of_ok happend']
      exact .ok ((hm.replaceDisk disk).modifyConnection id _)

theorem keeps_startLogging (id : Nat) (path : String) : ρ.Keeps lax (Run.startLogging id path) :=
  .bind (.changing (fun m => .closeLog m id) fun _ _ hm => hm.modifyConnection id _) fun _ =>
    keeps_openLog id path

end Comparison

namespace Introspection

theorem targetModule_on {m m' : Machine} (hm : ρ.Related m m') (name : Option Value) :
    targetModule m' (ρ.on name) = targetModule m name := by
  cases name with
  | none => rfl
  | some v =>
    have hfor := hm.moduleFor? v
    cases v with
    | bool b =>
      cases b with
      | true => exact congrArg (·.getD Machine.defaultId) hfor
      | false => rfl
    | _ => exact congrArg (·.getD Machine.defaultId) hfor

theorem kindOf_on (keywordsAreValues : Bool) (v : Option Value) :
    kindOf keywordsAreValues (ρ.on v) = kindOf keywordsAreValues v := by
  cases v with
  | none => rfl
  | some v =>
    simp only [on_some, kindOf, Value.isProcedure_on]
    cases v with
    | object kind parts => cases keywordsAreValues <;> cases kind <;> cases parts <;> rfl
    | _ => cases keywordsAreValues <;> rfl

theorem follows_classifyAll (keywordsAreValues : Bool) (home : Nat) (names : List String) :
    ρ.Keeps lax (classifyAll keywordsAreValues home names) := by
  induction names with
  | nil => exact .pure rfl
  | cons name rest ih =>
    refine .bind (.bind (keeps_valueIn? name home) fun found => .pure ?_) fun kind =>
      .bind_fixed ih fun _ => .pure (on_fixed _).symm
    have hvalue : (ρ.on found).map (·.1) = ρ.on (found.map (·.1)) := by cases found <;> rfl
    rw [hvalue]
    exact kindOf_on keywordsAreValues _

theorem completions_on {m m' : Machine} (hm : ρ.Related m m') (stem : String) :
    completions m' stem = completions m stem := by
  rw [completions, hm.visibleNames, hm.current, completions]

theorem moduleCompletions_on {m m' : Machine} (hm : ρ.Related m m') (stem : String) :
    moduleCompletions m' stem = moduleCompletions m stem := by
  rw [moduleCompletions, hm.modules, Array.toList_map, List.map_map]
  rfl

theorem follows_moduleExports (name : Value) :
    ρ.Follows lax (moduleExports name) (moduleExports (ρ.on name)) := by
  refine .get (tame_moduleExports (R := fun _ => True) name).moves fun m m' hm => ?_
  rw [hm.moduleFor?, hm.keywordsAreValues]
  cases m.moduleFor? name with
  | some id =>
    simp only [hm.exports]
    exact .bind_fixed (follows_classifyAll _ _ _) fun _ => .pure rfl
  | none => exact .pure rfl

end Introspection

namespace Signature

theorem follows_argsValue (sig : Signature) :
    ρ.Follows lax sig.argsValue (ρ.on sig).argsValue := by
  refine .bind (keeps_newText _) fun word => ?_
  refine .bind (keeps_newList (word :: sig.required)) fun required => ?_
  refine .bind (keeps_newText _) fun marker => .bind (keeps_newText _) fun word => ?_
  have hoptional : (ρ.on word :: if sig.hasRest then [ρ.on marker] else []) =
      ρ.on (word :: if sig.hasRest then [marker] else []) := by
    split <;> rfl
  refine .bind (hoptional ▸ keeps_newList _) fun optional => ?_
  refine .bind (keeps_newText _) fun word => .bind (keeps_newList [word]) fun key => ?_
  refine .bind (keeps_newText _) fun word => ?_
  refine .bind (keeps_newList [required, optional, key]) fun parts => ?_
  exact keeps_newList [word, parts]

theorem follows_moduleValue (home : String) : ρ.Keeps lax (moduleValue home) :=
  .bind (keeps_newText _) fun word => keeps_newList [word, .sym home]

theorem follows_value (sig : Signature) : ρ.Follows lax sig.value (ρ.on sig).value :=
  .bind (follows_argsValue sig) fun args => .bind (follows_moduleValue _) fun home =>
    keeps_newList [.sym sig.name, args, home]

end Signature

namespace Introspection

theorem follows_entry (key : String) (v : Value) :
    ρ.Follows lax (entry key v) (entry key (ρ.on v)) := by
  refine .bind (keeps_newText key) fun key => ?_
  rw [Node.elements?_on]
  cases v.elements? with
  | some items => exact keeps_newList (key :: items)
  | none => exact keeps_newImproper [key] v

theorem nameOf?_on (v : Value) : nameOf? (ρ.on v) = nameOf? v := by
  cases v <;> simp [nameOf?, Node.text?]

theorem follows_lookup? (name : Value) (home : Option Value) :
    ρ.Follows lax (lookup? name home) (lookup? (ρ.on name) (ρ.on home)) := by
  unfold lookup?
  rw [nameOf?_on]
  cases nameOf? name with
  | none => exact .pure rfl
  | some name =>
    refine .get ?_ fun m m' hm => ?_
    · have hvalue : ∀ home, ρ.Keeps lax (Run.valueIn? name home) := keeps_valueIn? name
      exact Run.Moves.get.bind fun m => (hvalue _).moves.bind fun found => by
        split <;> exact .pure _
    · rw [targetModule_on hm]
      refine .bind (keeps_valueIn? name _) fun found => ?_
      rcases found with _ | ⟨v, id⟩
      · exact .pure rfl
      · exact .pure (congrArg (fun home => some (Found.mk name (ρ.on v) home)) (hm.moduleName id))

theorem follows_documentation (found : Found) :
    ρ.Follows lax (documentation found) (documentation (ρ.on found)) := by
  obtain ⟨name, v, home⟩ := found
  have hentries : ∀ (signature : Value) (docstring : String), ρ.Follows lax
      (do
        let signature ← entry "signature" signature
        Run.newList [signature, ← entry "docstring" (← Run.newText docstring)])
      (do
        let signature ← entry "signature" (ρ.on signature)
        Run.newList [signature, ← entry "docstring" (← Run.newText docstring)]) := by
    intro signature docstring
    refine .bind (follows_entry _ signature) fun first => .bind (keeps_newText _) fun text => ?_
    exact .bind (follows_entry _ text) fun second => keeps_newList [first, second]
  have hobject : ∀ v : Value, ρ.Follows lax
      (do
        let args ← (Signature.mk name [] false home).argsValue
        let sig ← Run.newList [.sym name, args]
        let text ← Run.text v
        let signature ← entry "signature" sig
        Run.newList [signature, ← entry "docstring"
          (← Run.newText ("An object in module " ++ home ++ ".\n\nValue:\n" ++ text))])
      (do
        let args ← (Signature.mk name [] false home).argsValue
        let sig ← Run.newList [.sym name, args]
        let text ← Run.text (ρ.on v)
        let signature ← entry "signature" sig
        Run.newList [signature, ← entry "docstring"
          (← Run.newText ("An object in module " ++ home ++ ".\n\nValue:\n" ++ text))]) := by
    intro v
    refine .bind (Signature.follows_argsValue ⟨name, [], false, home⟩) fun args => ?_
    refine .bind (keeps_newList [.sym name, args]) fun sig => ?_
    exact .bind (keeps_text v) fun text => hentries sig _
  refine .bind (keeps_closure? v) fun c => ?_
  cases c with
  | some c =>
    exact .bind (Signature.follows_value (.ofFormals name c.formals home)) fun sig =>
      hentries sig _
  | none =>
    cases v with
    | object kind parts =>
      cases kind <;> cases parts <;> first
        | exact hobject _
        | exact .bind (keeps_newText _) fun sig => hentries sig _
    | _ => exact hobject _

theorem follows_symbolDocumentation (name : Value) (home : Option Value) :
    ρ.Follows lax (symbolDocumentation name home)
      (symbolDocumentation (ρ.on name) (ρ.on home)) := by
  refine .bind (follows_lookup? name home) fun found => ?_
  cases found with
  | some found => exact follows_documentation found
  | none => exact keeps_newText _

theorem follows_autodocEntry (found : Found) :
    ρ.Follows lax (autodocEntry found) (autodocEntry (ρ.on found)) := by
  obtain ⟨name, v, home⟩ := found
  have hobject : ∀ v : Value, ρ.Follows lax
      (do
        let shown ← entry "value" (← Run.newText (← Run.text v))
        Run.newList [.sym name, shown, ← Signature.moduleValue home])
      (do
        let shown ← entry "value" (← Run.newText (← Run.text (ρ.on v)))
        Run.newList [.sym name, shown, ← Signature.moduleValue home]) := by
    intro v
    refine .bind (keeps_text v) fun text => .bind (keeps_newText text) fun text => ?_
    refine .bind (follows_entry _ text) fun shown => ?_
    exact .bind (Signature.follows_moduleValue home) fun home =>
      keeps_newList [.sym name, shown, home]
  refine .bind (keeps_closure? v) fun c => ?_
  cases c with
  | some c => exact Signature.follows_value (.ofFormals name c.formals home)
  | none =>
    cases v with
    | object kind parts =>
      cases kind <;> cases parts <;> first
        | exact hobject _
        | exact .bind (Signature.follows_moduleValue home) fun home =>
            keeps_newList [.sym name, home]
    | _ => exact hobject _

theorem follows_autodocEntries (home : Option Value) (names : List Value) :
    ρ.Follows lax (autodocEntries home names) (autodocEntries (ρ.on home) (ρ.on names)) := by
  induction names with
  | nil => exact .pure rfl
  | cons name rest ih =>
    refine .bind (follows_lookup? name home) fun found => ?_
    cases found with
    | some found => exact .bind (follows_autodocEntry found) fun _ => .bind ih fun _ => .pure rfl
    | none => exact ih

theorem follows_autodoc (names : Value) (home : Option Value) :
    ρ.Follows lax (autodoc names home) (autodoc (ρ.on names) (ρ.on home)) := by
  have hnames : (ρ.on names).elements?.getD [ρ.on names] = ρ.on (names.elements?.getD [names]) := by
    rw [Node.elements?_on]
    exact option_getD_on names.elements? [names]
  unfold autodoc
  rw [hnames]
  exact .bind (follows_autodocEntries home _) fun entries => keeps_newList entries

end Introspection

namespace Service

theorem follows_textArg (service : Service) (v : Value) :
    ρ.Follows lax (service.textArg v) (service.textArg (ρ.on v)) := by
  have hbad : ∀ v : Value, ρ.Follows lax
      (do Run.fail (.badArgument service.name "string" (← Run.described v)) : Run String)
      (do Run.fail (.badArgument service.name "string" (← Run.described (ρ.on v)))) :=
    fun v => .bind (keeps_described v) fun _ => .fail _
  cases v with
  | str tag text => exact .pure rfl
  | _ => exact hbad _

theorem follows_count (service : Service) (low high : Nat) (args : List Value) :
    ρ.Follows lax (service.count low high args) (service.count low high (ρ.on args)) := by
  simp only [count, Primitive.checkCount, length_on]
  exact .ite (.fail _) (.pure rfl)

theorem keeps_newNames (texts : List String) : ρ.Keeps lax (newTexts texts) := by
  induction texts with
  | nil => exact .pure rfl
  | cons text rest ih => exact .bind (keeps_newText _) fun _ => .bind ih fun _ => .pure rfl

/-- The list of the names that related machines agree on. -/
theorem keeps_newListOf (names : Machine → List String)
    (h : ∀ m m', ρ.Related m m' → names m' = names m) :
    ρ.Keeps lax (do Run.newList (← newTexts (names (← get)))) := by
  have hlist : ∀ names, ρ.Keeps lax (do Run.newList (← newTexts names)) :=
    fun names => .bind (keeps_newNames names) fun vs => keeps_newList vs
  refine .get (Run.Moves.get.bind fun m => (hlist _).moves) fun m m' hm => ?_
  rw [h m m' hm]
  exact hlist _

theorem follows_evalReply (hg : g.Follows ρ lax g') (home form : Value) :
    ρ.Follows lax (evalReply g home form) (evalReply g' (ρ.on home) (ρ.on form)) := by
  refine .get ?_ fun m m' hm => ?_
  · exact Run.Moves.get.bind fun m => (Reply.follows_capture (hg.eval form _)).moves
  · have htarget := Introspection.targetModule_on hm (some home)
    rw [on_some] at htarget
    rw [htarget]
    exact Reply.follows_capture (hg.eval form _)

theorem follows_loadReply (hg : g.Follows ρ lax g') (connection : Nat) (name : String) :
    ρ.Follows lax (loadReply g connection name) (loadReply g' connection name) := by
  refine .bind (keeps_connection connection) fun c => ?_
  have hload : ∀ path, ρ.Follows lax
      (Reply.capture do
        g.load path none
        return .void)
      (Reply.capture do
        g'.load path none
        return .void) :=
    fun path => Reply.follows_capture (.bind (hg.load path none) fun _ => .pure rfl)
  refine .get ?_ fun m m' hm => ?_
  · exact Run.Moves.get.bind fun m => by
      split
      · exact (hload _).moves
      · exact .pure _
  · rw [hm.disk, on_fixed]
    cases c.resolve m.disk name with
    | some path => exact hload path
    | none => exact .pure rfl

theorem follows_addPathReply (connection : Nat) (path : String) :
    ρ.Keeps lax (addPathReply connection path) := by
  have hadd : ρ.Keeps lax (Run.modifyConnection connection (·.addPath path)) :=
    .changing (fun m => .addPath m connection path) fun _ _ hm => hm.modifyConnection connection _
  refine Reply.follows_capture (.get ?_ fun m m' hm => ?_)
  · exact Run.Moves.get.bind fun m => .ite (hadd.moves.bind fun _ => .pure _) (.pure _)
  · rw [hm.disk]
    exact .ite (.bind hadd fun _ => .pure rfl) (.pure rfl)

theorem follows_expansion (hg : g.Follows ρ lax g') (form : Value) (everything : Bool) :
    ρ.Follows lax (expansion g form everything) (expansion g' (ρ.on form) everything) := by
  refine follows_current fun id => follows_attempt (hg.expand form _ everything) ?_ rfl
  rintro (stop | v)
  · cases stop with
    | error e => exact Reply.follows_value _
    | _ => exact .throw _
  · exact .bind (keeps_text v) fun text => keeps_newText text

/-- Every service follows itself. -/
theorem follows_call (hg : g.Follows ρ lax g') (connection : Nat) (args : List Value)
    (service : Service) :
    ρ.Follows lax (service.call g connection args) (service.call g' connection (ρ.on args)) := by
  have hfirst : (ρ.on args).headD .void = ρ.on (args.headD .void) := headD_on args .void
  have hsecond : (ρ.on args).getD 1 .void = ρ.on (args.getD 1 .void) := getD_on args 1 .void
  have htext : ρ.Follows lax (service.textArg (args.headD .void))
      (service.textArg (ρ.on (args.headD .void))) := follows_textArg service _
  unfold call
  simp only [hfirst, hsecond, getElem?_on]
  cases service
  case eval =>
    exact .bind (follows_count _ _ _ args) fun _ => .bind (follows_evalReply hg _ _) fun r =>
      Reply.follows_value r
  case loadFile =>
    exact .bind (follows_count _ _ _ args) fun _ => .bind htext fun path =>
      .bind (follows_loadReply hg connection path) fun r => Reply.follows_value r
  case addToLoadPath =>
    exact .bind (follows_count _ _ _ args) fun _ => .bind htext fun path =>
      .bind (follows_addPathReply connection path) fun r => Reply.follows_value r
  case noValues => exact Reply.follows_value _
  case completions =>
    exact .bind (follows_count _ _ _ args) fun _ => .bind htext fun stem =>
      keeps_newListOf (Introspection.completions · stem) fun _ _ hm =>
        Introspection.completions_on hm stem
  case moduleCompletions =>
    exact .bind (follows_count _ _ _ args) fun _ => .bind htext fun stem =>
      keeps_newListOf (Introspection.moduleCompletions · stem) fun _ _ hm =>
        Introspection.moduleCompletions_on hm stem
  case moduleExports =>
    exact .bind (follows_count _ _ _ args) fun _ => .bind (Introspection.follows_moduleExports _)
      fun d => keeps_ofDatum d
  case autodoc =>
    exact .bind (follows_count _ _ _ args) fun _ => Introspection.follows_autodoc _ _
  case symbolDocumentation =>
    exact .bind (follows_count _ _ _ args) fun _ => Introspection.follows_symbolDocumentation _ _
  case macroexpand =>
    have hflag : (ρ.on args[1]?).any (!·.isFalse) = args[1]?.any (!·.isFalse) := by
      cases args[1]? <;> simp
    rw [hflag]
    exact .bind (follows_count _ _ _ args) fun _ => follows_expansion hg _ _
  case startLogging =>
    exact .bind (follows_count _ _ _ args) fun _ => .bind htext fun path =>
      .bind (keeps_startLogging connection path) fun _ => .pure rfl

end Service

end LiveScheme
