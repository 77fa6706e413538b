import LiveScheme.Proofs.Machine.Becomes
import Mathlib.Data.List.Find

/-!
# Searching along imports

A search depends on the imports, on which modules export the name and on which own it. What it finds
owns the name, and where fewer modules own the name it goes on for longer. What a name stands for in
a module, as a variable or as a keyword, depends on the modules only.
-/

namespace LiveScheme

namespace Search

variable {f g : Nat → Search}

theorem exists_of_firstOf {ids : List Nat} {home : Nat} (h : firstOf f ids = .found home) :
    ∃ id ∈ ids, f id = .found home := by
  induction ids with
  | nil => cases h
  | cons id rest ih =>
    unfold firstOf at h
    split at h
    · obtain ⟨other, hother, hf⟩ := ih h
      exact ⟨other, List.mem_cons_of_mem _ hother, hf⟩
    · exact ⟨id, List.mem_cons_self, h⟩

theorem firstOf_absent {ids : List Nat} (hfg : ∀ id, f id = .absent → g id = .absent)
    (h : firstOf f ids = .absent) : firstOf g ids = .absent := by
  induction ids with
  | nil => rfl
  | cons id rest ih =>
    unfold firstOf at h ⊢
    split at h
    · next hid =>
      rw [hfg id hid]
      exact ih h
    · next hid => exact absurd h hid

theorem firstOf_endless {ids : List Nat} (habsent : ∀ id, f id = .absent → g id = .absent)
    (hendless : ∀ id, f id = .endless → g id = .endless) (h : firstOf f ids = .endless) :
    firstOf g ids = .endless := by
  induction ids with
  | nil => cases h
  | cons id rest ih =>
    unfold firstOf at h ⊢
    split at h
    · next hid =>
      rw [habsent id hid]
      exact ih h
    · rw [hendless id h]

end Search

namespace Machine

variable {m m' : Machine} {name : String} {owns owns' : Module → Bool}

theorem module_of_not_lt {id : Nat} (h : ¬ id < m.modules.size) : m.module id = default := by
  rw [module, Array.getD_eq_getD_getElem?, Array.getElem?_eq_none (Nat.not_lt.mp h)]
  rfl

theorem searchFrom_eq (himports : ∀ id, (m'.module id).imports = (m.module id).imports)
    (hexports : ∀ id,
      (m'.module id).exports.contains name = (m.module id).exports.contains name)
    (howns : ∀ id, owns' (m'.module id) = owns (m.module id)) (depth id : Nat) :
    m'.searchFrom owns' name depth id = m.searchFrom owns name depth id := by
  induction depth generalizing id with
  | zero => rfl
  | succ depth ih => simp only [searchFrom, howns, himports, hexports, ih]

theorem owns_of_searchFrom {depth id home : Nat}
    (h : m.searchFrom owns name depth id = .found home) : owns (m.module home) = true := by
  induction depth generalizing id with
  | zero => cases h
  | succ depth ih =>
    unfold searchFrom at h
    split at h
    · next howns =>
      cases h
      exact howns
    · obtain ⟨i, -, hi⟩ := Search.exists_of_firstOf h
      split at hi
      · exact ih hi
      · cases hi

theorem find_eq_frame_iff {s : Scope} {id : Nat} :
    m.find name s = .frame id ↔ m.frameOf? name s.frames = some id := by
  unfold find
  cases m.frameOf? name s.frames with
  | some frame => simp
  | none => cases m.searchVariable name s.home <;> simp

theorem find_eq_home_iff {s : Scope} {id : Nat} : m.find name s = .home id ↔
    m.frameOf? name s.frames = none ∧ m.searchVariable name s.home = .found id := by
  unfold find
  cases m.frameOf? name s.frames with
  | some frame => simp
  | none => cases m.searchVariable name s.home <;> simp

theorem has_of_find_frame {s : Scope} {id : Nat} (h : m.find name s = .frame id) :
    (m.frame id).has name = true :=
  List.find?_some (p := fun id => (m.frame id).has name) (find_eq_frame_iff.mp h)

theorem has_of_find {s : Scope} {id : Nat} (h : m.find name s = .home id) :
    (m.module id).vars.has name = true :=
  owns_of_searchFrom (find_eq_home_iff.mp h).2

/-- A search that some modules do not end is as long for fewer of them. -/
theorem searchFrom_of_fewer (howns : ∀ id, owns' (m.module id) = true → owns (m.module id) = true)
    (depth id : Nat) :
    (m.searchFrom owns name depth id = .absent → m.searchFrom owns' name depth id = .absent) ∧
      (m.searchFrom owns name depth id = .endless →
        m.searchFrom owns' name depth id = .endless) := by
  -- both at once: a search goes on to the next import only where the one before had nothing
  induction depth generalizing id with
  | zero => exact ⟨fun h => h, fun h => h⟩
  | succ depth ih =>
    cases hid : owns (m.module id) with
    | true =>
      unfold searchFrom
      rw [if_pos hid]
      exact ⟨nofun, nofun⟩
    | false =>
      have hid' : owns' (m.module id) = false :=
        Bool.eq_false_iff.mpr fun h => Bool.eq_false_iff.mp hid (howns id h)
      have habsent : ∀ i, (if (m.module i).exports.contains name then
            m.searchFrom owns name depth i else .absent) = .absent →
          (if (m.module i).exports.contains name then
            m.searchFrom owns' name depth i else .absent) = .absent := by
        intro i hi
        split at hi
        · next hexport => rw [if_pos hexport, (ih i).1 hi]
        · next hexport => rw [if_neg hexport]
      have hendless : ∀ i, (if (m.module i).exports.contains name then
            m.searchFrom owns name depth i else .absent) = .endless →
          (if (m.module i).exports.contains name then
            m.searchFrom owns' name depth i else .absent) = .endless := by
        intro i hi
        split at hi
        · next hexport => rw [if_pos hexport, (ih i).2 hi]
        · cases hi
      simp only [searchFrom, hid, hid', Bool.false_eq_true, if_false]
      exact ⟨Search.firstOf_absent habsent, Search.firstOf_endless habsent hendless⟩

theorem search_endless (owns owns' : Module → Bool)
    (howns : ∀ id, owns' (m.module id) = true → owns (m.module id) = true) {id : Nat}
    (h : m.search owns name id = .endless) : m.search owns' name id = .endless :=
  (searchFrom_of_fewer howns _ _).2 h

/-- What is searched for depends on the modules only. -/
theorem search_congr {m m' : Machine} (h : m'.modules = m.modules) (owns : Module → Bool)
    (name : String) (id : Nat) : m'.search owns name id = m.search owns name id := by
  have hmodule : ∀ id, m'.module id = m.module id := fun id => by rw [module, module, h]
  rw [search, search, h]
  exact searchFrom_eq (fun id => by rw [hmodule]) (fun id => by rw [hmodule])
    (fun id => by rw [hmodule]) _ _

theorem isLocal_congr {m m' : Machine} {s : Scope}
    (h : ∀ id ∈ s.frames, m'.frame id = m.frame id) (name : String) :
    m'.isLocal name s = m.isLocal name s := by
  have hfind : m'.frameOf? name s.frames = m.frameOf? name s.frames :=
    List.find?_congr fun id hid => by rw [h id hid]
  rw [isLocal, isLocal, hfind]

end Machine

theorem Table.has_put {α : Type} (t : Table α) (name other : String) (a : α) :
    (t.put name a).has other = (decide (other = name) || t.has other) := by
  unfold has
  by_cases h : other = name
  · subst h
    simp
  · simp [get?_put_of_ne t a h, h]

/-- A table has a name if and only if the name is one of its names. -/
theorem Table.has_iff_mem {α : Type} {t : Table α} {name : String} :
    t.has name = true ↔ name ∈ t.names := by
  induction t with
  | nil => simp [has, names]
  | cons entry rest ih =>
    unfold has at ih ⊢
    rw [get?, names, List.map_cons, List.mem_cons]
    split
    · next h => simp [h]
    · next h =>
      rw [ih]
      exact ⟨.inr, fun hmem => hmem.resolve_left fun heq => h heq.symm⟩

theorem Table.mem_of_get? {α : Type} {t : Table α} {name : String} {a : α}
    (h : t.get? name = some a) : (name, a) ∈ t := by
  induction t with
  | nil => cases h
  | cons entry rest ih =>
    unfold Table.get? at h
    split at h
    · next hname =>
      cases h
      cases hname
      exact List.mem_cons_self
    · exact List.mem_cons_of_mem _ (ih h)

namespace Run

theorem valueIn?_congr {m m' n : Machine} (h : m'.modules = m.modules) {name : String} {id : Nat}
    {v : Option (Value × Nat)} (hv : valueIn? name id m = .ok v n) :
    valueIn? name id m' = .ok v m' := by
  have hsearch : m'.searchVariable name id = m.searchVariable name id :=
    Machine.search_congr h _ _ _
  have hmodule : ∀ id, m'.module id = m.module id := fun id => by
    rw [Machine.module, Machine.module, h]
  unfold valueIn? at hv ⊢
  rw [get_bind] at hv
  rw [get_bind, hsearch]
  cases hs : m.searchVariable name id with
  | found home =>
    rw [hs] at hv
    cases hv
    change EStateM.Result.ok (((m'.module home).vars.get? name).map fun v => (v, home)) m' = _
    rw [hmodule]
  | absent => rw [hs] at hv; cases hv; rfl
  | endless => rw [hs] at hv; cases hv

theorem keywordIn?_congr {m m' n : Machine} (h : m'.modules = m.modules)
    (hk : m'.keywordsAreValues = m.keywordsAreValues) {name : String} {id : Nat}
    {k : Option Keyword} (hv : keywordIn? name id m = .ok k n) :
    keywordIn? name id m' = .ok k m' := by
  have hmodule : ∀ id, m'.module id = m.module id := fun id => by
    rw [Machine.module, Machine.module, h]
  unfold keywordIn? at hv ⊢
  rw [get_bind] at hv
  rw [get_bind, hk]
  cases hmodern : m.keywordsAreValues with
  | true =>
    rw [hmodern, if_pos rfl] at hv
    rw [if_pos rfl]
    cases hvalue : valueIn? name id m with
    | error stop m₁ => rw [bind_of_error hvalue] at hv; cases hv
    | ok found m₁ =>
      rw [bind_of_ok hvalue] at hv
      rw [bind_of_ok (valueIn?_congr h hvalue)]
      split at hv <;> cases hv <;> rfl
  | false =>
    have hsearch : m'.searchExpander name id = m.searchExpander name id :=
      Machine.search_congr h _ _ _
    rw [hmodern, if_neg (by decide)] at hv
    rw [if_neg (by decide), hsearch]
    cases hs : m.searchExpander name id with
    | found home =>
      rw [hs] at hv
      cases hv
      change EStateM.Result.ok ((m'.module home).expanders.get? name) m' = _
      rw [hmodule]
    | absent => rw [hs] at hv; cases hv; rfl
    | endless => rw [hs] at hv; cases hv

/-- What a head denotes depends on the modules and on the frames of its scope. -/
theorem keyword?_congr {m m' n : Machine} {s : Scope} (h : m'.modules = m.modules)
    (hk : m'.keywordsAreValues = m.keywordsAreValues)
    (hframes : ∀ id ∈ s.frames, m'.frame id = m.frame id) {head : Value} {k : Option Keyword}
    (hv : keyword? head s m = .ok k n) : keyword? head s m' = .ok k m' := by
  cases head with
  | sym name =>
    change (if m.isLocal name s then pure none else keywordIn? name s.home) m = _ at hv
    change (if m'.isLocal name s then pure none else keywordIn? name s.home) m' = _
    rw [Machine.isLocal_congr hframes]
    cases hown : m.isLocal name s with
    | true =>
      rw [hown] at hv
      cases hv
      rfl
    | false =>
      rw [hown] at hv
      exact keywordIn?_congr h hk hv
  | _ =>
    cases hv
    rfl

/-- What a head denotes stands in a table of a module. -/
theorem mem_of_keyword? {head : Value} {s : Scope} {m n : Machine} {k : Keyword}
    (h : keyword? head s m = .ok (some k) n) : ∃ id name,
      (name, Value.keyword k) ∈ (m.module id).vars ∨ (name, k) ∈ (m.module id).expanders := by
  cases head with
  | sym name =>
    change (if m.isLocal name s then pure none else keywordIn? name s.home) m = _ at h
    split at h
    · cases h
    · change (if m.keywordsAreValues then _ else _ : Run (Option Keyword)) m = _ at h
      split at h
      · obtain ⟨found, m', hvalue, h⟩ := exists_of_bind_ok h
        unfold valueIn? at hvalue
        obtain ⟨m, m, hget, hvalue⟩ := exists_of_bind_ok hvalue
        cases hget
        cases hsearch : m.searchVariable name s.home with
        | found home =>
          rw [hsearch] at hvalue
          cases hvalue
          cases hentry : (m.module home).vars.get? name with
          | none =>
            rw [hentry] at h
            cases h
          | some v =>
            rw [hentry] at h
            cases v with
            | object kind parts =>
              cases kind <;> cases parts <;> cases h
              exact ⟨home, name, .inl (Table.mem_of_get? hentry)⟩
            | _ => cases h
        | absent =>
          rw [hsearch] at hvalue
          cases hvalue
          cases h
        | endless =>
          rw [hsearch] at hvalue
          cases hvalue
      · cases hsearch : m.searchExpander name s.home with
        | found home =>
          rw [hsearch] at h
          exact ⟨home, name, .inr (Table.mem_of_get? (EStateM.Result.ok.inj h).1)⟩
        | absent =>
          rw [hsearch] at h
          cases h
        | endless =>
          rw [hsearch] at h
          cases h
  | _ => cases h

end Run

end LiveScheme
