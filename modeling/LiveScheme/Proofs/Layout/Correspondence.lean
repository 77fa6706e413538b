import LiveScheme.Proofs.Machine.Invariants
import LiveScheme.Proofs.Machine.Registry
import LiveScheme.Proofs.Machine.Search

/-!
# Machines of both layouts

A machine of the new layout corresponds to one of the old layout when they are the same but for the
keywords: what is an expander of a module in the old layout is a variable of that module in the new
one. The old machine is separated when no name is a variable of one module and a keyword of another.
-/

namespace LiveScheme

namespace Table

variable {α : Type}

theorem get?_of_has_eq_false {t : Table α} {name : String} (h : t.has name = false) :
    t.get? name = none := by simpa [has] using h

theorem get?_append (t u : Table α) (name : String) :
    get? (t ++ u) name = (t.get? name).or (u.get? name) := by
  induction t with
  | nil => rfl
  | cons entry rest ih =>
    rw [List.cons_append, get?, get?]
    split
    · rfl
    · exact ih

theorem get?_map {β : Type} (f : α → β) (t : Table α) (name : String) :
    get? (t.map fun entry => (entry.1, f entry.2)) name = (t.get? name).map f := by
  induction t with
  | nil => rfl
  | cons entry rest ih =>
    rw [List.map_cons, get?, get?]
    split
    · rfl
    · exact ih

end Table

namespace Run

theorem contains_addName (known : List String) (name other : String) :
    (addName known name).contains other = (known.contains other || other == name) := by
  unfold addName
  split
  · next hknown =>
    by_cases h : other = name
    · subst h
      rw [hknown, Bool.true_or]
    · simp [h]
  · rw [List.contains_append, List.contains_cons, List.contains_nil, Bool.or_false]

theorem contains_addNames {known known' : List String}
    (h : ∀ name, known'.contains name = known.contains name) (names : List String) (name : String) :
    (names.foldl addName known').contains name = (names.foldl addName known).contains name := by
  induction names generalizing known known' with
  | nil => exact h name
  | cons first rest ih => exact ih fun other => by rw [contains_addName, contains_addName, h]

end Run

structure Module.Corresponds (d d' : Module) : Prop where
  name : d'.name = d.name
  imports : d'.imports = d.imports
  exports : ∀ name, d'.exports.contains name = d.exports.contains name
  vars : ∀ name, d'.vars.get? name =
    (d.vars.get? name).or ((d.expanders.get? name).map Value.keyword)
  expanders : d'.expanders = []

namespace Machine

variable {m m' : Machine}

section Modules

/-- What holds of a module with nothing in it holds at every place, if it holds of the modules that
there are. -/
theorem forall_module {P : Module → Prop} (hdefault : P default) :
    (∀ id, P (m.module id)) ↔ ∀ d ∈ m.modules.toList, P d := by
  constructor
  · intro h d hd
    obtain ⟨id, hid⟩ := List.mem_iff_getElem?.mp hd
    have hmodule : m.module id = d := by
      rw [module, Array.getD_eq_getD_getElem?, ← Array.getElem?_toList, hid]
      rfl
    exact hmodule ▸ h id
  · intro h id
    by_cases hid : id < m.modules.size
    · exact h _ (Array.mem_toList_iff.mpr (Array.mem_of_getElem? (module_of_lt hid)))
    · rw [module_of_not_lt hid]
      exact hdefault

theorem module_push (m : Machine) (d : Module) (j : Nat) :
    module { m with modules := m.modules.push d } j =
      if j = m.modules.size then d else m.module j :=
  getD_push _ _ _ _

end Modules

/-- No name is a variable of one module and a keyword of another. -/
def Separated (m : Machine) : Prop :=
  ∀ {i j : Nat} {name : String}, (m.module i).vars.has name = true →
    (m.module j).expanders.has name = false

def IsKeyword (m : Machine) (name : String) : Prop :=
  ∃ id, (m.module id).expanders.has name = true

section Decisions

theorem separated_iff : m.Separated ↔ ∀ d ∈ m.modules.toList, ∀ d' ∈ m.modules.toList,
    ∀ name ∈ d.vars.names, d'.expanders.has name = false :=
  calc m.Separated
    _ ↔ ∀ i j, ∀ name ∈ (m.module i).vars.names, (m.module j).expanders.has name = false :=
      ⟨fun h _ _ _ hname => h (Table.has_iff_mem.mpr hname),
        fun h {i j name} hi => h i j name (Table.has_iff_mem.mp hi)⟩
    _ ↔ ∀ i, ∀ d' ∈ m.modules.toList, ∀ name ∈ (m.module i).vars.names,
        d'.expanders.has name = false :=
      forall_congr' fun i => forall_module
        (P := fun d' => ∀ name ∈ (m.module i).vars.names, d'.expanders.has name = false)
        fun _ _ => rfl
    _ ↔ _ := forall_module
        (P := fun d => ∀ d' ∈ m.modules.toList, ∀ name ∈ d.vars.names,
          d'.expanders.has name = false)
        fun _ _ _ hname => absurd hname List.not_mem_nil

theorem isKeyword_iff {name : String} :
    m.IsKeyword name ↔ ∃ d ∈ m.modules.toList, d.expanders.has name = true := by
  have h := (forall_module (m := m) (P := fun d => ¬ d.expanders.has name = true) nofun).not
  simpa [IsKeyword] using h

instance : Decidable m.Separated := decidable_of_iff _ separated_iff.symm

instance (name : String) : Decidable (m.IsKeyword name) := decidable_of_iff _ isKeyword_iff.symm

end Decisions

theorem Separated.has_eq_false {m : Machine} (hm : m.Separated) {name : String}
    (hname : m.IsKeyword name) (id : Nat) : (m.module id).vars.has name = false := by
  obtain ⟨j, hj⟩ := hname
  refine Bool.eq_false_iff.mpr fun hhas => ?_
  rw [hm hhas] at hj
  cases hj

/-- Variables and keywords stay what they are, so a machine that is not separated never becomes
separated again. -/
theorem Becomes.has (h : m.Becomes m') (id : Nat) (name : String) :
    ((m.module id).vars.has name = true → (m'.module id).vars.has name = true) ∧
      ((m.module id).expanders.has name = true → (m'.module id).expanders.has name = true) := by
  induction h with
  | trans _ _ ih ih' => exact ⟨fun h => ih'.1 (ih.1 h), fun h => ih'.2 (ih.2 h)⟩
  | newModule m other hnew =>
    rw [module_push]
    split
    · next hid =>
      rw [module_of_not_lt (by omega)]
      exact ⟨nofun, nofun⟩
    · exact ⟨fun h => h, fun h => h⟩
  | define m i other v =>
    rw [module_modify]
    split
    · exact ⟨fun h => by rw [Table.has_put, h, Bool.or_true], fun h => h⟩
    · exact ⟨fun h => h, fun h => h⟩
  | defineKeyword m i other k _ =>
    rw [module_modify]
    split
    · exact ⟨fun h => h, fun h => by rw [Table.has_put, h, Bool.or_true]⟩
    · exact ⟨fun h => h, fun h => h⟩
  | exportNames m i names =>
    rw [module_modify]
    split <;> exact ⟨fun h => h, fun h => h⟩
  | importModule m i other _ =>
    rw [module_modify]
    split <;> exact ⟨fun h => h, fun h => h⟩
  | within m m' i _ ih => exact ih
  | capturing m m' _ ih => exact ih
  | _ => exact ⟨fun h => h, fun h => h⟩

theorem Becomes.separated (h : m.Becomes m') (hm' : m'.Separated) : m.Separated := by
  intro i j name hi
  by_contra hj
  have hj' := (h.has j name).2 (by simpa using hj)
  rw [hm' ((h.has i name).1 hi)] at hj'
  cases hj'

/-- The machine in the new layout, with modules of its own. -/
def renewed (m : Machine) (version : String) (modules : Array Module) : Machine :=
  { m with version, keywordsAreValues := true, modules }

/-- The second machine is what the first one would be in the new layout. -/
structure Corresponds (m m' : Machine) : Prop where
  old : m.keywordsAreValues = false
  new : m' = m.renewed m'.version m'.modules
  size : m'.modules.size = m.modules.size
  module : ∀ id, (m.module id).Corresponds (m'.module id)

namespace Corresponds

theorem keywordsAreValues (h : m.Corresponds m') : m'.keywordsAreValues = true := by
  rw [h.new]
  rfl

theorem frames (h : m.Corresponds m') : m'.frames = m.frames := by
  rw [h.new]
  rfl

theorem closures (h : m.Corresponds m') : m'.closures = m.closures := by
  rw [h.new]
  rfl

theorem current (h : m.Corresponds m') : m'.current = m.current := by
  rw [h.new]
  rfl

theorem nextTag (h : m.Corresponds m') : m'.nextTag = m.nextTag := by
  rw [h.new]
  rfl

theorem console (h : m.Corresponds m') : m'.console = m.console := by
  rw [h.new]
  rfl

theorem disk (h : m.Corresponds m') : m'.disk = m.disk := by
  rw [h.new]
  rfl

theorem name (h : m.Corresponds m') (id : Nat) : (m'.module id).name = (m.module id).name :=
  (h.module id).name

theorem findModule? (h : m.Corresponds m') : m'.findModule? = m.findModule? := by
  have hnames : m'.modules.map (·.name) = m.modules.map (·.name) := by
    refine Array.ext (by simpa using h.size) fun id hid hid' => ?_
    have hname := h.name id
    rw [Array.size_map] at hid hid'
    simp only [Machine.module, Array.getD_eq_getD_getElem?, Array.getElem?_eq_getElem hid,
      Array.getElem?_eq_getElem hid', Option.getD_some] at hname
    simpa using hname
  funext name
  have hfound := congrArg (Array.findIdx? (· == name)) hnames
  rw [Array.findIdx?_map, Array.findIdx?_map] at hfound
  exact hfound

/-- What a machine does besides its modules, it does in both layouts. -/
theorem change (h : m.Corresponds m') {f : Machine → Machine}
    (hold : (f m).keywordsAreValues = m.keywordsAreValues)
    (hmodules : ∀ n : Machine, (f n).modules = n.modules)
    (hnew : ∀ version modules, f (m.renewed version modules) = (f m).renewed version modules) :
    (f m).Corresponds (f m') where
  old := hold.trans h.old
  new := by
    have hf := hnew m'.version m'.modules
    rw [← h.new] at hf
    rw [hf]
    rfl
  size := by rw [hmodules, hmodules, h.size]
  module id := by
    simp only [Machine.module, hmodules]
    exact h.module id

theorem modifyModule (h : m.Corresponds m') {id : Nat} {f f' : Module → Module}
    (hf : id < m.modules.size → (f (m.module id)).Corresponds (f' (m'.module id))) :
    Corresponds { m with modules := m.modules.modify id f }
      { m' with modules := m'.modules.modify id f' } where
  old := h.old
  new := congrArg (fun n : Machine => { n with modules := m'.modules.modify id f' }) h.new
  size := by simpa using h.size
  module j := by
    rw [module_modify, module_modify, h.size]
    split
    · next hj =>
      obtain ⟨rfl, hj⟩ := hj
      exact hf hj
    · exact h.module j

theorem select (h : m.Corresponds m') (id : Nat) :
    Corresponds { m with current := id } { m' with current := id } :=
  h.change (f := fun n => { n with current := id }) rfl (fun _ => rfl) fun _ _ => rfl

theorem newTag (h : m.Corresponds m') :
    Corresponds { m with nextTag := m.nextTag + 1 } { m' with nextTag := m'.nextTag + 1 } :=
  h.change (f := fun n => { n with nextTag := n.nextTag + 1 }) rfl (fun _ => rfl) fun _ _ => rfl

theorem newFrame (h : m.Corresponds m') (bindings : Table Value) :
    Corresponds { m with frames := m.frames.push bindings }
      { m' with frames := m'.frames.push bindings } :=
  h.change (f := fun n => { n with frames := n.frames.push bindings }) rfl (fun _ => rfl)
    fun _ _ => rfl

theorem newClosure (h : m.Corresponds m') (c : Closure) :
    Corresponds { m with closures := m.closures.push c }
      { m' with closures := m'.closures.push c } :=
  h.change (f := fun n => { n with closures := n.closures.push c }) rfl (fun _ => rfl)
    fun _ _ => rfl

theorem nameClosure (h : m.Corresponds m') (id : Nat) (name : String) :
    Corresponds
      { m with closures := m.closures.modify id fun c => { c with name := c.name <|> some name } }
      { m' with
        closures := m'.closures.modify id fun c => { c with name := c.name <|> some name } } :=
  h.change (f := fun n =>
    { n with closures := n.closures.modify id fun c => { c with name := c.name <|> some name } })
    rfl (fun _ => rfl) fun _ _ => rfl

theorem writeTo (h : m.Corresponds m') (p : Port) (text : String) :
    Corresponds { m with console := m.console.write p text }
      { m' with console := m'.console.write p text } :=
  h.change (f := fun n => { n with console := n.console.write p text }) rfl (fun _ => rfl)
    fun _ _ => rfl

theorem modifyFrame (h : m.Corresponds m') (id : Nat) (name : String) (v : Value) :
    Corresponds { m with frames := m.frames.modify id (·.put name v) }
      { m' with frames := m'.frames.modify id (·.put name v) } :=
  h.change (f := fun n => { n with frames := n.frames.modify id (·.put name v) }) rfl
    (fun _ => rfl) fun _ _ => rfl

/-- A variable hides a keyword of the same module. -/
theorem define (h : m.Corresponds m') (id : Nat) (name : String) (v : Value) :
    Corresponds
      { m with modules := m.modules.modify id fun d => { d with vars := d.vars.put name v } }
      { m' with
        modules := m'.modules.modify id fun d => { d with vars := d.vars.put name v } } := by
  refine h.modifyModule fun _ => ⟨h.name id, (h.module id).imports, (h.module id).exports,
    fun other => ?_, (h.module id).expanders⟩
  by_cases hother : other = name
  · subst hother
    simp
  · rw [Table.get?_put_of_ne _ _ hother, Table.get?_put_of_ne _ _ hother]
    exact (h.module id).vars other

theorem defineKeyword (h : m.Corresponds m') (id : Nat) (name : String) (k : Keyword)
    (hnone : id < m.modules.size → (m.module id).vars.get? name = none) :
    Corresponds
      { m with modules := m.modules.modify id fun d =>
        { d with expanders := d.expanders.put name k } }
      { m' with modules := m'.modules.modify id fun d =>
        { d with vars := d.vars.put name (.keyword k) } } := by
  refine h.modifyModule fun hid => ⟨h.name id, (h.module id).imports, (h.module id).exports,
    fun other => ?_, (h.module id).expanders⟩
  by_cases hother : other = name
  · subst hother
    simp [hnone hid]
  · rw [Table.get?_put_of_ne _ _ hother, Table.get?_put_of_ne _ _ hother]
    exact (h.module id).vars other

theorem exportNames (h : m.Corresponds m') (id : Nat) (names : List String) :
    Corresponds
      { m with modules := m.modules.modify id fun d =>
        { d with exports := names.foldl Run.addName d.exports } }
      { m' with modules := m'.modules.modify id fun d =>
        { d with exports := names.foldl Run.addName d.exports } } :=
  h.modifyModule fun _ => ⟨h.name id, (h.module id).imports,
    Run.contains_addNames (h.module id).exports names, (h.module id).vars, (h.module id).expanders⟩

theorem importModule (h : m.Corresponds m') (id other : Nat) :
    Corresponds
      { m with modules := m.modules.modify id fun d => { d with
        imports := if d.imports.contains other then d.imports else d.imports ++ [other] } }
      { m' with modules := m'.modules.modify id fun d => { d with
        imports := if d.imports.contains other then d.imports else d.imports ++ [other] } } :=
  h.modifyModule fun _ => ⟨h.name id, by rw [(h.module id).imports], (h.module id).exports,
    (h.module id).vars, (h.module id).expanders⟩

theorem pushModule (h : m.Corresponds m') (name : String) :
    Corresponds { m with modules := m.modules.push (Module.fresh name [schemeId]) }
      { m' with modules := m'.modules.push (Module.fresh name [schemeId]) } where
  old := h.old
  new := congrArg (fun n : Machine =>
    { n with modules := m'.modules.push (Module.fresh name [schemeId]) }) h.new
  size := by simpa using h.size
  module j := by
    rw [module_push, module_push, h.size]
    split
    · exact ⟨rfl, rfl, fun _ => rfl, fun _ => rfl, rfl⟩
    · exact h.module j

end Corresponds

end Machine

end LiveScheme
