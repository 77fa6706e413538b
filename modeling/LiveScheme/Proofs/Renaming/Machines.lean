import LiveScheme.Proofs.Renaming.Values
import LiveScheme.Proofs.Machine.Becomes

/-!
# Machines under a renaming

Two machines are related by a renaming when one holds what the other holds, with other identities
and closures at other places; it may hold more closures. Both see the same modules, bindings and
files and print values in the same way, and what they make next gets numbers that the renaming
relates again.
-/

namespace LiveScheme

section Printing

variable {ρ : Renaming} {name name' : Object → Option String}

mutual

theorem Node.chars_on (h : ∀ kind, name' (ρ.on kind) = name kind) (readable : Bool) :
    ∀ v : Value, (ρ.on v).chars name' readable = v.chars name readable
  | .bool _ | .int _ | .char _ | .sym _ | .real _ _ | .str _ _ => by simp [Node.chars]
  | .list _ items | .vector _ items => by simp [Node.chars, itemsChars_on h readable items]
  | .improper _ items tail => by
    simp [Node.chars, itemsChars_on h readable items, chars_on h readable tail]
  | .object kind parts => by simp [Node.chars, h, itemsChars_on h readable parts]

theorem Node.itemsChars_on (h : ∀ kind, name' (ρ.on kind) = name kind) (readable : Bool) :
    ∀ vs : List Value, Node.itemsChars name' readable (ρ.on vs) = Node.itemsChars name readable vs
  | [] => rfl
  | v :: rest => by
    have hrest := itemsChars_on h readable rest
    cases rest <;> simp_all [Node.itemsChars, chars_on h readable v]

end

mutual

theorem Node.described_on (h : ∀ kind, name' (ρ.on kind) = name kind) :
    ∀ v : Value, (ρ.on v).described name' = v.described name
  | .bool _ | .int _ | .char _ | .sym _ | .real _ _ | .str _ _ => by simp [Node.described]
  | .list _ items | .vector _ items => by simp [Node.described, describedItems_on h items]
  | .improper _ items tail => by
    simp [Node.described, describedItems_on h items, described_on h tail]
  | .object kind parts => by simp [Node.described, h, describedItems_on h parts]

theorem Node.describedItems_on (h : ∀ kind, name' (ρ.on kind) = name kind) :
    ∀ vs : List Value, Node.describedItems name' (ρ.on vs) = Node.describedItems name vs
  | [] => rfl
  | v :: rest => by
    have hrest := describedItems_on h rest
    cases rest <;> simp_all [Node.describedItems, described_on h v]

end

theorem Node.label_on (h : ∀ kind, name' (ρ.on kind) = name kind) (v : Value) :
    (ρ.on v).label name' = v.label name := by
  have hdescribed := Node.described_on h v
  cases v <;> simp_all [Node.label]

end Printing

namespace Table

variable {ρ : Renaming} {α : Type} [Renames α]

@[simp] theorem get?_on (t : Table α) (name : String) :
    get? (ρ.on t) name = ρ.on (t.get? name) := by
  induction t with
  | nil => rfl
  | cons entry rest ih =>
    obtain ⟨key, b⟩ := entry
    simp only [Renaming.on_cons, Renaming.on_mk, Renaming.on_fixed, get?, ih]
    split <;> rfl

@[simp] theorem has_on (t : Table α) (name : String) : has (ρ.on t) name = t.has name := by
  simp [has]

@[simp] theorem put_on (t : Table α) (name : String) (a : α) :
    put (ρ.on t) name (ρ.on a) = ρ.on (t.put name a) := by
  induction t with
  | nil => rfl
  | cons entry rest ih =>
    obtain ⟨key, b⟩ := entry
    simp only [Renaming.on_cons, Renaming.on_mk, Renaming.on_fixed, put, ih]
    split <;> simp

@[simp] theorem names_on (t : Table α) : names (ρ.on t) = t.names := by
  induction t with
  | nil => rfl
  | cons entry rest ih =>
    obtain ⟨key, b⟩ := entry
    simp_all [names]

end Table

/-- A renaming by which runs are compared as long as the counters of the first one stay within the
limits. -/
structure Comparison extends Renaming where
  tagLimit : Nat
  placeLimit : Nat

namespace Comparison

variable (ρ : Comparison)

/-- The second machine holds what the first one holds, under the renaming. -/
structure Related (m m' : Machine) : Prop where
  version : m'.version = m.version
  keywordsAreValues : m'.keywordsAreValues = m.keywordsAreValues
  modules : m'.modules = m.modules.map ρ.on
  frames : m'.frames = m.frames.map ρ.on
  closures : ∀ id, m'.closures[ρ.place id]? = ρ.on m.closures[id]?
  connections : m'.connections = m.connections
  current : m'.current = m.current
  console : m'.console = m.console
  disk : m'.disk = m.disk
  tags : ∀ n, m.nextTag + n < ρ.tagLimit → ρ.tag (m.nextTag + n) = m'.nextTag + n
  places : ∀ n, m.closures.size + n < ρ.placeLimit →
    ρ.place (m.closures.size + n) = m'.closures.size + n

/-- The counters of the machine are within the limits. -/
structure Admits (m : Machine) : Prop where
  tags : m.nextTag ≤ ρ.tagLimit
  places : m.closures.size ≤ ρ.placeLimit

end Comparison

namespace Comparison.Related

variable {ρ : Comparison} {m m' : Machine}

theorem select (h : ρ.Related m m') (id : Nat) :
    ρ.Related { m with current := id } { m' with current := id } :=
  { h with current := rfl }

theorem beginCapture (h : ρ.Related m m') : ρ.Related m.beginCapture m'.beginCapture :=
  { h with console := by rw [Machine.beginCapture, Machine.beginCapture, h.console] }

theorem endCapture (h : ρ.Related m m') : ρ.Related m.endCapture m'.endCapture :=
  { h with console := by rw [Machine.endCapture, Machine.endCapture, h.console] }

theorem module (h : ρ.Related m m') (id : Nat) : m'.module id = ρ.on (m.module id) := by
  rw [Machine.module, Machine.module, h.modules, Array.getD_eq_getD_getElem?,
    Array.getD_eq_getD_getElem?, Array.getElem?_map]
  cases m.modules[id]? <;> rfl

theorem frame (h : ρ.Related m m') (id : Nat) : m'.frame id = ρ.on (m.frame id) := by
  rw [Machine.frame, Machine.frame, h.frames, Array.getD_eq_getD_getElem?,
    Array.getD_eq_getD_getElem?, Array.getElem?_map]
  cases m.frames[id]? <;> rfl

theorem moduleName (h : ρ.Related m m') (id : Nat) : (m'.module id).name = (m.module id).name := by
  rw [h.module]
  rfl

theorem exports (h : ρ.Related m m') (id : Nat) :
    (m'.module id).exports = (m.module id).exports := by
  rw [h.module]
  rfl

theorem imports (h : ρ.Related m m') (id : Nat) :
    (m'.module id).imports = (m.module id).imports := by
  rw [h.module]
  rfl

theorem vars (h : ρ.Related m m') (id : Nat) : (m'.module id).vars = ρ.on (m.module id).vars := by
  rw [h.module]
  rfl

theorem expanders (h : ρ.Related m m') (id : Nat) :
    (m'.module id).expanders = ρ.on (m.module id).expanders := by
  rw [h.module]
  rfl

theorem size (h : ρ.Related m m') : m'.modules.size = m.modules.size := by
  rw [h.modules, Array.size_map]

theorem findModule? (h : ρ.Related m m') : m'.findModule? = m.findModule? := by
  funext name
  rw [Machine.findModule?, Machine.findModule?, h.modules, Array.findIdx?_map]
  rfl

theorem closureName (h : ρ.Related m m') (id : Nat) :
    m'.closureName (ρ.place id) = m.closureName id := by
  rw [Machine.closureName, Machine.closureName, h.closures]
  cases m.closures[id]? <;> rfl

theorem objectText (h : ρ.Related m m') (kind : Object) :
    m'.objectText (ρ.on kind) = m.objectText kind := by
  rcases kind with _ | _ | id | _ | (_ | _) | id | (_ | _) <;>
    simp [Machine.objectText, h.closureName, h.moduleName, Keyword.name]

theorem write (h : ρ.Related m m') (v : Value) : m'.write (ρ.on v) = m.write v :=
  congrArg String.ofList (Node.chars_on h.objectText true v)

theorem display (h : ρ.Related m m') (v : Value) : m'.display (ρ.on v) = m.display v :=
  congrArg String.ofList (Node.chars_on h.objectText false v)

theorem describe (h : ρ.Related m m') (v : Value) : m'.describe (ρ.on v) = m.describe v :=
  congrArg String.ofList (Node.described_on h.objectText v)

theorem label (h : ρ.Related m m') (v : Value) : m'.label (ρ.on v) = m.label v :=
  congrArg String.ofList (Node.label_on h.objectText v)

theorem search (h : ρ.Related m m') {owns : Module → Bool}
    (howns : ∀ d : Module, owns (ρ.on d) = owns d) (name : String) (id : Nat) :
    m'.search owns name id = m.search owns name id := by
  have hfrom : ∀ depth, m'.searchFrom owns name depth = m.searchFrom owns name depth := by
    intro depth
    induction depth with
    | zero => rfl
    | succ depth ih =>
      funext id
      rw [Machine.searchFrom, Machine.searchFrom, h.module, howns, ih]
      simp only [← h.module, h.exports, h.imports]
  rw [Machine.search, Machine.search, h.size, hfrom]

theorem searchVariable (h : ρ.Related m m') (name : String) (id : Nat) :
    m'.searchVariable name id = m.searchVariable name id :=
  h.search (fun _ => Table.has_on _ name) name id

theorem searchExpander (h : ρ.Related m m') (name : String) (id : Nat) :
    m'.searchExpander name id = m.searchExpander name id :=
  h.search (fun _ => Table.has_on _ name) name id

theorem frameOf? (h : ρ.Related m m') (name : String) (frames : List Nat) :
    m'.frameOf? name frames = m.frameOf? name frames := by
  simp only [Machine.frameOf?, h.frame, Table.has_on]

theorem isLocal (h : ρ.Related m m') (name : String) (s : Scope) :
    m'.isLocal name s = m.isLocal name s := by
  rw [Machine.isLocal, Machine.isLocal, h.frameOf?]

theorem find (h : ρ.Related m m') (name : String) (s : Scope) : m'.find name s = m.find name s := by
  rw [Machine.find, Machine.find, h.frameOf?, h.searchVariable]

theorem visibleNames (h : ρ.Related m m') (id : Nat) : m'.visibleNames id = m.visibleNames id := by
  simp only [Machine.visibleNames, h.vars, h.expanders, h.imports, h.exports, Table.names_on]

theorem moduleName? (h : ρ.Related m m') (v : Value) :
    m'.moduleName? (ρ.on v) = m.moduleName? v := by
  have hlabels : ∀ vs : List Value,
      (ρ.on vs).map (·.label m'.objectText) = vs.map (·.label m.objectText) := fun vs => by
    induction vs with
    | nil => rfl
    | cons v rest ih => rw [Renaming.on_cons, List.map_cons, ih, Node.label_on h.objectText]; rfl
  cases v with
  | list _ items | vector _ items =>
    cases items <;> simp_all [Machine.moduleName?, Node.label_on h.objectText]
  | object kind parts => cases kind <;> cases parts <;> simp [Machine.moduleName?, h.moduleName]
  | _ => simp [Machine.moduleName?]

theorem moduleFor? (h : ρ.Related m m') (v : Value) : m'.moduleFor? (ρ.on v) = m.moduleFor? v := by
  have hname := h.moduleName? v
  cases v with
  | object kind parts =>
    cases kind <;> cases parts <;> simp_all [Machine.moduleFor?, h.findModule?]
  | _ => simp_all [Machine.moduleFor?, h.findModule?]

end Comparison.Related

end LiveScheme
