import LiveScheme.Proofs.Machine.Invariants
import LiveScheme.Proofs.Machine.Search

/-!
# Assignment

An assignment changes one variable of one frame or module, and that variable had a value before. So
no table comes to have a name that it had not, every name is found where it was found, and whoever
finds the assigned variable there sees the new value, through whichever frames, imports and
re-exports. Everybody else, and everything else, is looked up as before. An assignment to a name
that is not found changes nothing.
-/

namespace LiveScheme

/-- A name that a table has can be put there again. -/
theorem Table.has_put_of_has {α : Type} {t : Table α} {name : String} (h : t.has name = true)
    (a : α) (other : String) : (t.put name a).has other = t.has other := by
  rw [has_put]
  by_cases hother : other = name
  · rw [decide_eq_true hother, hother, h, Bool.true_or]
  · rw [decide_eq_false hother, Bool.false_or]

/-- How a program ends, whatever it has changed. -/
def Run.outcome {α : Type} (x : Run α) (m : Machine) : Except Stop α :=
  match x m with
  | .ok a _ => .ok a
  | .error stop _ => .error stop

namespace Machine

/-- The value of a variable at the place where it was found. -/
def valueAt? (m : Machine) (name : String) : Binding → Option Value
  | .frame id => (m.frame id).get? name
  | .home id => (m.module id).vars.get? name
  | .absent | .endless => none

/-- The machine with another value of the variable at that place. -/
def store (m : Machine) (name : String) (v : Value) : Binding → Machine
  | .frame id => { m with frames := m.frames.modify id (·.put name v) }
  | .home id =>
    { m with modules := m.modules.modify id fun d => { d with vars := d.vars.put name v } }
  | .absent | .endless => m

/-- The variable has a value at that place. -/
def Holds (m : Machine) (name : String) (b : Binding) : Prop := (m.valueAt? name b).isSome = true

variable {m : Machine} {name other : String} {v : Value} {b : Binding} {s : Scope}

theorem holds_find (habsent : m.find name s ≠ .absent) (hends : m.find name s ≠ .endless) :
    m.Holds name (m.find name s) := by
  cases hfind : m.find name s with
  | frame id => exact has_of_find_frame hfind
  | home id => exact has_of_find hfind
  | absent => exact absurd hfind habsent
  | endless => exact absurd hfind hends

theorem lt_size_of_frame {id : Nat} (h : m.Holds name (.frame id)) : id < m.frames.size := by
  by_contra hid
  have hnone : m.frame id = [] := by
    rw [frame, Array.getD_eq_getD_getElem?, Array.getElem?_eq_none (Nat.not_lt.mp hid)]
    rfl
  rw [Holds, valueAt?, hnone] at h
  cases h

theorem lt_size_of_home {id : Nat} (h : m.Holds name (.home id)) : id < m.modules.size := by
  by_contra hid
  rw [Holds, valueAt?, module_of_not_lt hid] at h
  cases h

theorem frame_store (m : Machine) (name : String) (v : Value) (b : Binding) (id : Nat) :
    (m.store name v b).frame id =
      if b = .frame id ∧ id < m.frames.size then (m.frame id).put name v else m.frame id := by
  cases b with
  | frame place =>
    rw [store, frame_modify]
    simp
  | _ => simp [store, frame]

theorem module_store (m : Machine) (name : String) (v : Value) (b : Binding) (id : Nat) :
    (m.store name v b).module id =
      if b = .home id ∧ id < m.modules.size then
        { m.module id with vars := (m.module id).vars.put name v }
      else m.module id := by
  cases b with
  | home place =>
    rw [store, module_modify]
    simp
  | _ => simp [store, module]

theorem size_store (m : Machine) (name : String) (v : Value) (b : Binding) :
    (m.store name v b).modules.size = m.modules.size := by
  cases b <;> simp [store]

section Holds

variable (hb : m.Holds name b) (v : Value)

include hb

/-- A frame has the names that it had. -/
theorem has_frame_store (other : String) (id : Nat) :
    ((m.store name v b).frame id).has other = (m.frame id).has other := by
  rw [frame_store]
  split
  · next h =>
    obtain ⟨rfl, -⟩ := h
    exact Table.has_put_of_has hb v other
  · rfl

/-- So has a module. -/
theorem has_module_store (other : String) (id : Nat) :
    ((m.store name v b).module id).vars.has other = (m.module id).vars.has other := by
  rw [module_store]
  split
  · next h =>
    obtain ⟨rfl, -⟩ := h
    exact Table.has_put_of_has hb v other
  · rfl

theorem searchVariable_store (other : String) (id : Nat) :
    (m.store name v b).searchVariable other id = m.searchVariable other id := by
  have himports : ∀ id, ((m.store name v b).module id).imports = (m.module id).imports :=
    fun id => by rw [module_store]; split <;> rfl
  have hexports : ∀ id, ((m.store name v b).module id).exports = (m.module id).exports :=
    fun id => by rw [module_store]; split <;> rfl
  unfold searchVariable search
  rw [size_store]
  refine searchFrom_eq himports (fun id => by rw [hexports]) (fun id => ?_) _ _
  exact has_module_store hb v other id

/-- Every name is found where it was found. -/
theorem find_store (other : String) (s : Scope) :
    (m.store name v b).find other s = m.find other s := by
  have hframe : (m.store name v b).frameOf? other s.frames = m.frameOf? other s.frames :=
    List.find?_congr fun id _ => has_frame_store hb v other id
  rw [find, find, hframe, searchVariable_store hb]

/-- The assigned variable has the new value, and every other one has its old one. -/
theorem valueAt?_store (other : String) (b' : Binding) :
    (m.store name v b).valueAt? other b' =
      if other = name ∧ b' = b then some v else m.valueAt? other b' := by
  cases b' with
  | frame id =>
    rw [valueAt?, frame_store]
    by_cases hplace : b = .frame id
    · subst hplace
      rw [if_pos ⟨rfl, lt_size_of_frame hb⟩]
      by_cases hother : other = name
      · subst hother
        rw [Table.get?_put_self, if_pos ⟨rfl, rfl⟩]
      · rw [Table.get?_put_of_ne _ _ hother, if_neg fun h => hother h.1, valueAt?]
    · rw [if_neg fun h => hplace h.1, if_neg fun h => hplace h.2.symm, valueAt?]
  | home id =>
    rw [valueAt?, module_store]
    by_cases hplace : b = .home id
    · subst hplace
      rw [if_pos ⟨rfl, lt_size_of_home hb⟩]
      by_cases hother : other = name
      · subst hother
        rw [Table.get?_put_self, if_pos ⟨rfl, rfl⟩]
      · rw [Table.get?_put_of_ne _ _ hother, if_neg fun h => hother h.1, valueAt?]
    · rw [if_neg fun h => hplace h.1, if_neg fun h => hplace h.2.symm, valueAt?]
  | absent | endless =>
    rw [if_neg]
    · rfl
    · rintro ⟨-, rfl⟩
      cases hb

end Holds

end Machine

namespace Run

variable {m : Machine} {name : String} {s : Scope}

theorem assign_of_absent (v : Value) (h : m.find name s = .absent) :
    assign name v s m = .error (.error (.unbound name)) m := by
  unfold assign
  rw [get_bind, h]
  rfl

theorem assign_of_holds (v : Value) (h : m.Holds name (m.find name s)) :
    assign name v s m = .ok () (m.store name v (m.find name s)) := by
  unfold assign
  rw [get_bind]
  cases hfind : m.find name s with
  | frame id => rfl
  | home id => rfl
  | absent | endless =>
    rw [hfind] at h
    cases h

/-- Looking up a name depends on where it is found, on its value there, and on the name of the
module where nothing is found. -/
theorem outcome_lookup (name : String) (s : Scope) (m : Machine) :
    (lookup name s).outcome m = match m.find name s with
      | .absent => .error (.error (.unboundIn name (m.module s.home).name))
      | .endless => .error .endless
      | b => .ok ((m.valueAt? name b).getD .void) := by
  unfold outcome lookup
  rw [get_bind]
  cases m.find name s <;> rfl

theorem outcome_lookup_store {b : Binding} (hb : m.Holds name b) (v : Value) (other : String)
    (t : Scope) : (lookup other t).outcome (m.store name v b) =
      if other = name ∧ m.find other t = b then .ok v else (lookup other t).outcome m := by
  have hname : ((m.store name v b).module t.home).name = (m.module t.home).name := by
    rw [Machine.module_store]
    split <;> rfl
  rw [outcome_lookup, outcome_lookup, Machine.find_store hb, hname]
  split
  · next h =>
    rw [h, if_neg]
    rintro ⟨-, rfl⟩
    cases hb
  · next h =>
    rw [h, if_neg]
    rintro ⟨-, rfl⟩
    cases hb
  · rw [Machine.valueAt?_store hb]
    split
    · rfl
    · rfl

/-- An assignment to a name that is not found is an error and changes nothing. Any other one makes
whoever finds this variable in the same place see the new value. All names are found where they were
found, and all other variables are looked up as before, whatever came of it. -/
theorem assign_updates (v : Value) (hends : m.find name s ≠ .endless) :
    m.find name s = .absent ∧ assign name v s m = .error (.error (.unbound name)) m ∨
      m.find name s ≠ .absent ∧ ∃ m', assign name v s m = .ok () m' ∧
        ∀ other t, m'.find other t = m.find other t ∧
          (lookup other t).outcome m' =
            if other = name ∧ m.find other t = m.find name s then .ok v
            else (lookup other t).outcome m := by
  by_cases habsent : m.find name s = .absent
  · exact .inl ⟨habsent, assign_of_absent v habsent⟩
  · have hb := Machine.holds_find habsent hends
    exact .inr ⟨habsent, _, assign_of_holds v hb, fun other t =>
      ⟨Machine.find_store hb v other t, outcome_lookup_store hb v other t⟩⟩

/-- A module that exports a variable, one that re-exports it, one that sees it through the other,
and a module and a frame with a variable of the same name. -/
def sharing : Machine :=
  { Machine.initial "1.70" true .empty with
    modules := #[Module.fresh "SCHEME" [],
      ⟨"a", [("x", .int 1)], ["x"], [0], []⟩, ⟨"b", [], ["x"], [0, 1], []⟩,
      ⟨"c", [], [], [0, 2], []⟩, ⟨"d", [("x", .int 2)], ["x"], [0, 1], []⟩]
    frames := #[[("x", .int 3)]] }

theorem assign_updates_sharing : sharing.find "x" (.ofModule 3) ≠ .endless ∧
    ∃ m', assign "x" (.int 9) (.ofModule 3) sharing = .ok () m' ∧
      (lookup "x" (.ofModule 1)).outcome m' = .ok (.int 9) ∧
      (lookup "x" (.ofModule 2)).outcome m' = .ok (.int 9) ∧
      (lookup "x" (.ofModule 4)).outcome m' = .ok (.int 2) ∧
      (lookup "x" ⟨[0], 3⟩).outcome m' = .ok (.int 3) := by
  have hends : sharing.find "x" (.ofModule 3) ≠ .endless := by decide
  refine ⟨hends, ?_⟩
  obtain ⟨habsent, -⟩ | ⟨-, m', hassign, hafter⟩ := assign_updates (.int 9) hends
  · exact absurd habsent (by decide)
  · exact ⟨m', hassign, (hafter _ _).2.trans (if_pos (by decide)),
      (hafter _ _).2.trans (if_pos (by decide)), (hafter _ _).2.trans (if_neg (by decide)),
      (hafter _ _).2.trans (if_neg (by decide))⟩

end Run

end LiveScheme
