import LiveScheme.Proofs.Mirror.Services
import Mathlib.Data.List.Nodup

/-!
# The modules of a machine

The names of modules are all different, so that every module is found under its own name. Every
module but the base module imports the base module first, no module imports itself, and neither
imports nor exports are repeated. In the modern layout no module has expanders, and in the other one
no variable holds a keyword. All of this holds on every machine that evaluations, files and requests
can lead to, whatever their outcome.
-/

namespace LiveScheme

/-- What holds of a module at its place. -/
structure Module.InOrder (modern : Bool) (id : Nat) (d : Module) : Prop where
  base : id ≠ Machine.schemeId → d.imports.head? = some Machine.schemeId
  apart : id ∉ d.imports
  importsOnce : d.imports.Nodup
  exportsOnce : d.exports.Nodup
  expanders : modern = true → d.expanders = []

theorem Run.nodup_addName {names : List String} (h : names.Nodup) (name : String) :
    (addName names name).Nodup := by
  unfold addName
  split
  · exact h
  · next hnew =>
    rw [← List.concat_eq_append]
    exact h.concat fun hmem => hnew (List.contains_iff_mem.mpr hmem)

theorem Run.nodup_addNames {names : List String} (h : names.Nodup) (more : List String) :
    (more.foldl addName names).Nodup := by
  induction more generalizing names with
  | nil => exact h
  | cons name rest ih => exact ih (nodup_addName h name)

namespace Module.InOrder

variable {modern : Bool} {id : Nat} {d : Module}

theorem fresh {name : String} (hid : id ≠ Machine.schemeId) :
    (Module.fresh name [Machine.schemeId]).InOrder modern id where
  base _ := rfl
  apart h := hid (List.mem_singleton.mp h)
  importsOnce := List.nodup_singleton _
  exportsOnce := List.nodup_nil
  expanders _ := rfl

theorem addImport (h : d.InOrder modern id) {other : Nat} (hne : id ≠ other) :
    InOrder modern id { d with
      imports := if d.imports.contains other then d.imports else d.imports ++ [other] } := by
  split
  · exact h
  · next hnew =>
    refine ⟨fun hid => ?_, fun hmem => ?_, ?_, h.exportsOnce, h.expanders⟩
    · rw [List.head?_append, h.base hid]
      rfl
    · rcases List.mem_append.mp hmem with hmem | hmem
      · exact h.apart hmem
      · exact hne (List.mem_singleton.mp hmem)
    · rw [← List.concat_eq_append]
      exact h.importsOnce.concat fun hmem => hnew (List.contains_iff_mem.mpr hmem)

end Module.InOrder

namespace Machine

/-- The modules have different names, the first two are the base module and the default module, and
each of them is in order. -/
structure Ordered (m : Machine) : Prop where
  named : ∀ {i j : Nat} {d e : Module}, m.modules[i]? = some d → m.modules[j]? = some e →
    d.name = e.name → i = j
  scheme : m.modules[schemeId]?.map (·.name) = some "SCHEME"
  default : m.modules[defaultId]?.map (·.name) = some "stklos"
  each : ∀ {id : Nat} {d : Module}, m.modules[id]? = some d → d.InOrder m.keywordsAreValues id

namespace Ordered

variable {m : Machine}

/-- Every module is found under its name. -/
theorem findModule?_of_get? (h : m.Ordered) {id : Nat} {d : Module} (hd : m.modules[id]? = some d) :
    m.findModule? d.name = some id := by
  obtain ⟨hid, rfl⟩ := Array.getElem?_eq_some_iff.mp hd
  refine Array.findIdx?_eq_some_iff_getElem.mpr ⟨hid, by simp, fun j hj hname => ?_⟩
  have hdup := h.named (Array.getElem?_eq_getElem (hj.trans hid)) hd (by simpa using hname)
  omega

theorem size_pos (h : m.Ordered) : defaultId < m.modules.size := by
  by_contra hsize
  have hnone := h.default
  rw [Array.getElem?_eq_none (by omega)] at hnone
  cases hnone

theorem of_modify (h : m.Ordered) {id : Nat} {f : Module → Module}
    (hname : ∀ d, (f d).name = d.name)
    (hf : ∀ {d : Module}, d.InOrder m.keywordsAreValues id → (f d).InOrder m.keywordsAreValues id) :
    Ordered { m with modules := m.modules.modify id f } := by
  have hget : ∀ {i : Nat} {d : Module}, (m.modules.modify id f)[i]? = some d →
      ∃ d₀, m.modules[i]? = some d₀ ∧ d.name = d₀.name ∧ d.InOrder m.keywordsAreValues i := by
    intro i d hd
    rw [Array.getElem?_modify] at hd
    split at hd
    · next hi =>
      subst hi
      obtain ⟨d₀, hd₀, rfl⟩ := Option.map_eq_some_iff.mp hd
      exact ⟨d₀, hd₀, hname d₀, hf (h.each hd₀)⟩
    · exact ⟨d, hd, rfl, h.each hd⟩
  have hnames : ∀ i : Nat,
      (m.modules.modify id f)[i]?.map Module.name = m.modules[i]?.map Module.name := by
    intro i
    rw [Array.getElem?_modify]
    split
    · rw [Option.map_map, show Module.name ∘ f = Module.name from funext hname]
    · rfl
  refine ⟨fun hd he heq => ?_, (hnames _).trans h.scheme, (hnames _).trans h.default, fun hd => ?_⟩
  · obtain ⟨d₀, hd₀, hdname, -⟩ := hget hd
    obtain ⟨e₀, he₀, hename, -⟩ := hget he
    exact h.named hd₀ he₀ (hdname.symm.trans (heq.trans hename))
  · obtain ⟨-, -, -, hd⟩ := hget hd
    exact hd

theorem of_push (h : m.Ordered) {name : String} (hnew : m.findModule? name = none) :
    Ordered { m with modules := m.modules.push (Module.fresh name [schemeId]) } := by
  have hother : ∀ {i : Nat} {d : Module}, m.modules[i]? = some d → d.name ≠ name := fun hd heq => by
    have hdiffers := Array.findIdx?_eq_none_iff.mp hnew _ (Array.mem_of_getElem? hd)
    simp [heq] at hdiffers
  have hget : ∀ {i : Nat} {d : Module},
      (m.modules.push (Module.fresh name [schemeId]))[i]? = some d →
      m.modules[i]? = some d ∨ i = m.modules.size ∧ d = Module.fresh name [schemeId] := by
    intro i d hd
    rw [Array.getElem?_push] at hd
    split at hd
    · next hi => exact .inr ⟨hi, by cases hd; rfl⟩
    · exact .inl hd
  have hold : ∀ {i : Nat} {d : Module}, m.modules[i]? = some d →
      (m.modules.push (Module.fresh name [schemeId]))[i]? = some d := by
    intro i d hd
    obtain ⟨hi, -⟩ := Array.getElem?_eq_some_iff.mp hd
    rw [Array.getElem?_push, if_neg (by omega), hd]
  have hmap : ∀ {i : Nat} {text : String}, m.modules[i]?.map Module.name = some text →
      (m.modules.push (Module.fresh name [schemeId]))[i]?.map Module.name = some text := by
    intro i text hi
    obtain ⟨d, hd, rfl⟩ := Option.map_eq_some_iff.mp hi
    rw [hold hd]
    rfl
  refine ⟨fun hd he heq => ?_, hmap h.scheme, hmap h.default, fun hd => ?_⟩
  · rcases hget hd with hd | ⟨hi, rfl⟩ <;> rcases hget he with he | ⟨hj, rfl⟩
    · exact h.named hd he heq
    · exact absurd heq (hother hd)
    · exact absurd heq.symm (hother he)
    · exact hi.trans hj.symm
  · rcases hget hd with hd | ⟨hi, rfl⟩
    · exact h.each hd
    · have hsize := h.size_pos
      exact .fresh fun hid => by simp only [schemeId, defaultId] at hid hsize; omega

end Ordered

namespace Becomes

variable {m m' : Machine}

theorem layout (h : m.Becomes m') : m'.keywordsAreValues = m.keywordsAreValues := by
  induction h with
  | trans _ _ ih ih' => exact ih'.trans ih
  | within _ _ _ _ ih => exact ih
  | capturing _ _ _ ih => exact ih
  | _ => rfl

theorem size_le (h : m.Becomes m') : m.modules.size ≤ m'.modules.size := by
  induction h with
  | trans _ _ ih ih' => exact ih.trans ih'
  | newModule m name _ => simp
  | within _ _ _ _ ih => exact ih
  | capturing _ _ _ ih => exact ih
  | _ => simp

theorem ordered (h : m.Becomes m') (hm : m.Ordered) : m'.Ordered := by
  induction h with
  | trans _ _ ih ih' => exact ih' (ih hm)
  | newModule m name hnew => exact hm.of_push hnew
  | define m id name v =>
    exact hm.of_modify (fun _ => rfl) fun hd =>
      ⟨hd.base, hd.apart, hd.importsOnce, hd.exportsOnce, hd.expanders⟩
  | defineKeyword m id name k hlegacy =>
    refine hm.of_modify (fun _ => rfl) fun hd =>
      ⟨hd.base, hd.apart, hd.importsOnce, hd.exportsOnce, fun hmodern => ?_⟩
    rw [hlegacy] at hmodern
    cases hmodern
  | exportNames m id names =>
    exact hm.of_modify (fun _ => rfl) fun hd =>
      ⟨hd.base, hd.apart, hd.importsOnce, Run.nodup_addNames hd.exportsOnce names, hd.expanders⟩
  | importModule m id other hne => exact hm.of_modify (fun _ => rfl) fun hd => hd.addImport hne
  | within m m' id _ ih =>
    have hm' := ih ⟨hm.named, hm.scheme, hm.default, hm.each⟩
    exact ⟨hm'.named, hm'.scheme, hm'.default, hm'.each⟩
  | capturing m m' _ ih =>
    have hm' := ih ⟨hm.named, hm.scheme, hm.default, hm.each⟩
    exact ⟨hm'.named, hm'.scheme, hm'.default, hm'.each⟩
  | _ => exact ⟨hm.named, hm.scheme, hm.default, hm.each⟩

/-- A module that is current for a while is left again, so the current module always exists. -/
theorem current_lt (h : m.Becomes m') (hm : m.current < m.modules.size) :
    m'.current < m'.modules.size := by
  induction h with
  | trans _ _ ih ih' => exact ih' (ih hm)
  | selectModule m name id hid => exact (Array.findIdx?_eq_some_iff_getElem.mp hid).1
  | within m m' id h ih => exact hm.trans_le h.size_le
  | capturing m m' _ ih => exact ih hm
  | _ => exact hm.trans_le (by simp)

end Becomes

section Initial

/-- Special forms and built-in procedures have different names. -/
theorem nodup_names :
    (SpecialForm.all.map (·.name) ++ Builtin.all.map (·.name)).Nodup := by
  decide +kernel

theorem inOrder_baseModule (modern : Bool) : (baseModule modern).InOrder modern schemeId := by
  refine ⟨fun h => absurd rfl h, List.not_mem_nil, List.nodup_nil, ?_, fun h => by rw [h]; rfl⟩
  cases modern with
  | false =>
    have hexports : (baseModule false).exports =
        Builtin.all.map (·.name) ++ SpecialForm.all.map (·.name) := by
      simp [baseModule, Table.names, Function.comp_def]
    rw [hexports]
    exact List.nodup_append_comm.mp nodup_names
  | true =>
    have hexports : (baseModule true).exports =
        SpecialForm.all.map (·.name) ++ Builtin.all.map (·.name) := by
      simp [baseModule, Table.names, Function.comp_def]
    rw [hexports]
    exact nodup_names

theorem ordered_initial (version : String) (modern : Bool) (disk : Disk) :
    (initial version modern disk).Ordered := by
  have hget : ∀ {i : Nat} {d : Module}, (initial version modern disk).modules[i]? = some d →
      i = schemeId ∧ d = baseModule modern ∨
        i = defaultId ∧ d = Module.fresh "stklos" [schemeId] := by
    intro i d hd
    match i with
    | 0 => exact .inl ⟨rfl, by cases hd; rfl⟩
    | 1 => exact .inr ⟨rfl, by cases hd; rfl⟩
    | i + 2 =>
      rw [Array.getElem?_eq_none (by simp [initial])] at hd
      cases hd
  refine ⟨fun hd he heq => ?_, rfl, rfl, fun hd => ?_⟩
  · have hne : (baseModule modern).name ≠ (Module.fresh "stklos" [schemeId]).name := by
      change "SCHEME" ≠ "stklos"
      decide
    rcases hget hd with ⟨rfl, rfl⟩ | ⟨rfl, rfl⟩ <;> rcases hget he with ⟨rfl, rfl⟩ | ⟨rfl, rfl⟩
    · rfl
    · exact absurd heq hne
    · exact absurd heq.symm hne
    · rfl
  · rcases hget hd with ⟨rfl, rfl⟩ | ⟨rfl, rfl⟩
    · exact inOrder_baseModule modern
    · exact .fresh (by decide)

end Initial

/-- The machines that evaluations, files, connections and requests lead to from a new one. What they
did to the machine counts however they ended. -/
inductive Reachable : Machine → Prop
  | fresh {version : String} {disk : Disk} {m : Machine} : fresh version disk = .ok m → Reachable m
  | evaluate {m : Machine} (allowance : Nat) (home : Option Nat) (forms : List Datum) :
    Reachable m → Reachable (((Engine.ofAllowance allowance).evalData home .void forms).after m)
  | load {m : Machine} (allowance : Nat) (path : String) (home : Option Nat) :
    Reachable m → Reachable (((Engine.ofAllowance allowance).load path home).after m)
  | connect {m : Machine} (loadPath : List String) (logFile : Option String) :
    Reachable m →
    Reachable ((do Run.installServices (← Run.openConnection loadPath logFile) : Run Unit).after m)
  | request {m : Machine} (allowance : Nat) (connection : Nat) (service : Service)
    (args : List Datum) : Reachable m →
    Reachable ((do
      let args ← Run.ofData args
      service.call (.ofAllowance allowance) connection args : Run Value).after m)

/-- What holds of the modules of a machine. -/
structure WellKept (m : Machine) : Prop where
  registered : ∀ {name : String} {id : Nat}, m.findModule? name = some id →
    id < m.modules.size ∧ (m.module id).name = name
  found : ∀ {id : Nat}, id < m.modules.size → m.findModule? (m.module id).name = some id
  current : m.findModule? (m.module m.current).name = some m.current
  default : m.findModule? "stklos" = some defaultId
  scheme : m.findModule? "SCHEME" = some schemeId
  modules : ∀ {id : Nat}, id < m.modules.size → (m.module id).InOrder m.keywordsAreValues id
  moduleValues : m.keywordsAreValues = false → ∀ id : Nat, Meets .keywordless (m.module id).vars
  frameValues : m.keywordsAreValues = false → ∀ id : Nat, Meets .keywordless (m.frame id)

/-- What a reachable machine is like: enough for the rest, and kept by every step. -/
structure Keeping (m : Machine) : Prop where
  ordered : m.Ordered
  current : m.current < m.modules.size
  upholds : m.keywordsAreValues = false → m.Upholds .keywordless

theorem Keeping.after {α : Type} [Checkable α] {x : Run α} (hx : x.Moves)
    (hkeeps : (Link.same .keywordless false).Keeps x) {m : Machine} (hm : m.Keeping) :
    (x.after m).Keeping := by
  have hbecomes := hx m
  refine ⟨hbecomes.ordered hm.ordered, hbecomes.current_lt hm.current, fun hlegacy => ?_⟩
  exact upholds_after hkeeps (hm.upholds (hbecomes.layout.symm.trans hlegacy))

theorem Reachable.keeping {m : Machine} (h : m.Reachable) : m.Keeping := by
  have hloose : Standard.keywordless.loosePairs = true := rfl
  induction h with
  | fresh h =>
    obtain ⟨modern, rfl⟩ := fresh_eq_ok h
    refine ⟨ordered_initial _ _ _, Nat.one_lt_two, fun hlegacy =>
      upholds_initial (fun hmodern => ?_) _ _⟩
    exact absurd (hlegacy.symm.trans hmodern) (by decide)
  | evaluate allowance home forms _ ih =>
    exact ih.after (Engine.moves_evalData (Engine.moves_ofAllowance allowance) _ _ _)
      ((mirrors_ofAllowance hloose allowance).evalData home meets_void
        (Datum.meets_all_of_loose hloose forms))
  | load allowance path home _ ih =>
    exact ih.after ((Engine.moves_ofAllowance allowance).load path home)
      ((mirrors_ofAllowance hloose allowance).load path home)
  | connect loadPath logFile _ ih =>
    exact ih.after ((Run.Moves.openConnection _ _).bind fun _ => Run.Moves.bindServices _ _)
      (.bind (keeps_openConnection loadPath logFile) fun _ _ => keeps_bindServices rfl _ _)
  | request allowance connection service args _ ih =>
    exact ih.after ((Run.Moves.ofData _).bind fun _ =>
        Service.moves_call (Engine.moves_ofAllowance allowance) _ _ _)
      (.bind (Link.keeps_ofData (Datum.meets_all_of_loose hloose args)) fun _ h =>
        Service.mirrors_call hloose (mirrors_ofAllowance hloose allowance) connection service h)

theorem module_of_lt {m : Machine} {id : Nat} (h : id < m.modules.size) :
    m.modules[id]? = some (m.module id) := by
  rw [module, Array.getD_eq_getD_getElem?, Array.getElem?_eq_getElem h]
  rfl

/-- Whatever was evaluated, loaded or requested, and however it ended, the modules are well kept. -/
theorem Reachable.wellKept {m : Machine} (h : m.Reachable) : m.WellKept := by
  obtain ⟨hm, hcurrent, hupholds⟩ := h.keeping
  have hfound : ∀ {id : Nat}, id < m.modules.size → m.findModule? (m.module id).name = some id :=
    fun hid => hm.findModule?_of_get? (module_of_lt hid)
  have hnamed : ∀ {id : Nat} {name : String}, m.modules[id]?.map (·.name) = some name →
      m.findModule? name = some id := by
    intro id name hname
    obtain ⟨d, hd, rfl⟩ := Option.map_eq_some_iff.mp hname
    exact hm.findModule?_of_get? hd
  refine ⟨fun {name id} hname => ?_, hfound, hfound hcurrent, hnamed hm.default, hnamed hm.scheme,
    fun hid => hm.each (module_of_lt hid), fun hlegacy id => (hupholds hlegacy).module id,
    fun hlegacy id => (hupholds hlegacy).frame id⟩
  obtain ⟨hid, hname, -⟩ := Array.findIdx?_eq_some_iff_getElem.mp hname
  have hget : m.module id = m.modules[id] :=
    Option.some.inj ((module_of_lt hid).symm.trans (Array.getElem?_eq_getElem hid))
  exact ⟨hid, by rw [hget]; simpa using hname⟩

/-- A module definition whose last form fails. -/
def halfDefinition : Datum :=
  Datum.list [.sym "define-module", .sym "a", Datum.list [.sym "export", .sym "x", .sym "x"],
    Datum.list [.sym "define", .sym "x", .int 1], Datum.list [.sym "import", .sym "b"]]

/-- A connection was opened, a module definition failed at its import, and the module was selected
by a request. -/
def interrupted : Machine :=
  (do
    let args ← Run.ofData [.bool false, Datum.list [.sym "select-module", .sym "a"]]
    Service.eval.call (.ofAllowance 30) 0 args : Run Value).after
    (((Engine.ofAllowance 30).evalData none .void [halfDefinition]).after
      ((do Run.installServices (← Run.openConnection ["lib"] none) : Run Unit).after
        (initial "1.50" false .empty)))

theorem wellKept_interrupted : interrupted.WellKept ∧
    (interrupted.module interrupted.current).name = "a" ∧
    (interrupted.module interrupted.current).exports = ["x"] ∧
    (interrupted.module interrupted.current).imports = [schemeId] ∧
    interrupted.keywordsAreValues = false := by
  have hfresh : fresh "1.50" .empty = .ok (initial "1.50" false .empty) := by
    have hparse : Version.parse "1.50" = .ok [1, 50] := by decide +kernel
    exact fresh_of_parse hparse .empty
  have hreachable : interrupted.Reachable :=
    (((Reachable.fresh hfresh).connect ["lib"] none).evaluate 30 none [halfDefinition]).request 30 0
      .eval _
  exact ⟨hreachable.wellKept, by decide +kernel⟩

end Machine

end LiveScheme
