import LiveScheme.Proofs.Layout.Correspondence
import LiveScheme.Proofs.Mirror.Sequence

/-!
# Operations on machines of both layouts

On corresponding machines the old layout finds a keyword among the expanders where the new one finds
it among the variables, and the variables of both are found in the same place. Three things end the
comparison: a machine that is no longer separated, a search that finds no end, and a keyword that
the old layout was asked to treat as a variable.
-/

namespace LiveScheme

/-- The name that an evaluation found to be unbound. -/
def Stop.unboundName? : Stop → Option String
  | .error (.unboundIn name _) | .error (.unbound name) => some name
  | _ => none

namespace Machine

variable {m m' : Machine} {name : String}

namespace Corresponds

theorem has (h : m.Corresponds m') (id : Nat) (name : String) :
    (m'.module id).vars.has name =
      ((m.module id).vars.has name || (m.module id).expanders.has name) := by
  unfold Table.has
  rw [(h.module id).vars]
  cases (m.module id).vars.get? name <;> simp

/-- A variable of the old layout has the same value in the new one. -/
theorem get?_of_has (h : m.Corresponds m') {id : Nat} (hhas : (m.module id).vars.has name = true) :
    (m'.module id).vars.get? name = (m.module id).vars.get? name := by
  obtain ⟨v, hv⟩ := Option.isSome_iff_exists.mp hhas
  rw [(h.module id).vars, hv, Option.some_or]

/-- A keyword of the old layout is a value in the new one. -/
theorem get?_of_keyword (h : m.Corresponds m') (hm : m.Separated) {id : Nat} {k : Keyword}
    (hk : (m.module id).expanders.get? name = some k) :
    (m'.module id).vars.get? name = some (.keyword k) := by
  have hkeyword : m.IsKeyword name := ⟨id, Option.isSome_iff_exists.mpr ⟨k, hk⟩⟩
  rw [(h.module id).vars, Table.get?_of_has_eq_false (hm.has_eq_false hkeyword id), hk]
  rfl

theorem search_eq (h : m.Corresponds m') {owns owns' : Module → Bool}
    (howns : ∀ id, owns' (m'.module id) = owns (m.module id)) (id : Nat) :
    m'.search owns' name id = m.search owns name id := by
  unfold search
  rw [h.size]
  exact searchFrom_eq (fun id => (h.module id).imports) (fun id => (h.module id).exports name) howns
    _ _

/-- A name that is no keyword is found in the same place. -/
theorem searchVariable_eq (h : m.Corresponds m') (hname : ¬ m.IsKeyword name) (id : Nat) :
    m'.searchVariable name id = m.searchVariable name id := by
  refine h.search_eq (fun id => ?_) id
  rw [h.has, Bool.eq_false_iff.mpr fun hkeyword => hname ⟨id, hkeyword⟩, Bool.or_false]

/-- A keyword is found as a variable where it was found as an expander. -/
theorem searchKeyword_eq (h : m.Corresponds m') (hm : m.Separated) (hname : m.IsKeyword name)
    (id : Nat) : m'.searchVariable name id = m.searchExpander name id := by
  refine h.search_eq (fun id => ?_) id
  rw [h.has, hm.has_eq_false hname, Bool.false_or]

end Corresponds

/-- A keyword is not found as a variable in the old layout. -/
theorem Separated.searchVariable_ne (hm : m.Separated) (hname : m.IsKeyword name) (id home : Nat) :
    m.searchVariable name id ≠ .found home := by
  intro hfound
  have hhas : (m.module home).vars.has name = true := owns_of_searchFrom hfound
  rw [hm.has_eq_false hname] at hhas
  cases hhas

/-- Where no module has a keyword, the search for it is as long as any other. -/
theorem searchVariable_ne_endless (hname : ¬ m.IsKeyword name) {id : Nat}
    (h : m.searchExpander name id = .absent) : m.searchVariable name id ≠ .endless := by
  intro hendless
  have hlonger : m.searchExpander name id = .endless :=
    search_endless (·.vars.has name) _ (fun id hid => absurd ⟨id, hid⟩ hname) hendless
  rw [h] at hlonger
  cases hlonger

/-- A name is bound in the same place, unless it is a keyword that is not bound at all. -/
theorem Corresponds.find (h : m.Corresponds m') (hm : m.Separated) (name : String) (s : Scope) :
    m'.find name s = m.find name s ∨
      m.IsKeyword name ∧ (m.find name s = .absent ∨ m.find name s = .endless) := by
  have hframe : m'.frameOf? name s.frames = m.frameOf? name s.frames := by
    unfold frameOf? frame
    rw [h.frames]
  unfold Machine.find
  rw [hframe]
  cases m.frameOf? name s.frames with
  | some id => exact .inl rfl
  | none =>
    by_cases hname : m.IsKeyword name
    · refine .inr ⟨hname, ?_⟩
      cases hsearch : m.searchVariable name s.home with
      | found home => exact absurd hsearch (hm.searchVariable_ne hname _ _)
      | absent => exact .inl rfl
      | endless => exact .inr rfl
    · rw [h.searchVariable_eq hname]
      exact .inl rfl

theorem Corresponds.objectText (h : m.Corresponds m') : m'.objectText = m.objectText := by
  funext o
  cases o with
  | closure id => simp only [Machine.objectText, closureName, h.closures]
  | space id => simp only [Machine.objectText, h.name]
  | port p => cases p <;> rfl
  | _ => rfl

end Machine

namespace Run

variable {m : Machine} {name : String} {id home : Nat}

theorem keywordIn?_of_expanders (hold : m.keywordsAreValues = false) :
    keywordIn? name id m = (match m.searchExpander name id with
      | .found home => .ok ((m.module home).expanders.get? name) m
      | .absent => .ok none m
      | .endless => .error .endless m) := by
  unfold keywordIn?
  rw [get_bind, if_neg (by rw [hold]; decide)]
  cases m.searchExpander name id <;> rfl

theorem keywordIn?_of_absent (hnew : m.keywordsAreValues = true)
    (h : m.searchVariable name id = .absent) : keywordIn? name id m = .ok none m := by
  have hvalue : valueIn? name id m = .ok none m := by
    unfold valueIn?
    rw [get_bind, h]
    rfl
  unfold keywordIn?
  rw [get_bind, if_pos hnew, bind_of_ok hvalue]
  rfl

theorem valueIn?_of_found {v : Value} (h : m.searchVariable name id = .found home)
    (hv : (m.module home).vars.get? name = some v) :
    valueIn? name id m = .ok (some (v, home)) m := by
  unfold valueIn?
  rw [get_bind, h]
  dsimp only
  rw [hv]
  rfl

theorem keywordIn?_of_keyword {k : Keyword} (hnew : m.keywordsAreValues = true)
    (h : m.searchVariable name id = .found home)
    (hk : (m.module home).vars.get? name = some (.keyword k)) :
    keywordIn? name id m = .ok (some k) m := by
  unfold keywordIn?
  rw [get_bind, if_pos hnew, bind_of_ok (valueIn?_of_found h hk)]
  rfl

theorem keywordIn?_of_other {v : Value} (hnew : m.keywordsAreValues = true)
    (h : m.searchVariable name id = .found home) (hv : (m.module home).vars.get? name = some v)
    (hother : ∀ k, v ≠ .keyword k) : keywordIn? name id m = .ok none m := by
  unfold keywordIn?
  rw [get_bind, if_pos hnew, bind_of_ok (valueIn?_of_found h hv)]
  cases v with
  | object kind parts =>
    cases kind with
    | keyword k =>
      cases parts with
      | nil => exact absurd rfl (hother k)
      | cons x rest => rfl
    | _ => rfl
  | _ => rfl

end Run

namespace Link

/-- No keywords among the values, and no services. -/
def oldValues : Standard := ⟨false, false, true⟩

theorem ne_keyword {v : Value} (hv : Meets oldValues v) (k : Keyword) : v ≠ .keyword k := by
  rintro rfl
  cases (meets_object.mp hv).1

/-- Machines of the old layout against those of the new one. -/
def layouts : Link where
  standard := oldValues
  related m m' := m.Corresponds m' ∧ m.Separated ∧ m.Upholds oldValues
  lost m := ¬ m.Separated ∧ m.Upholds oldValues
  excused stop m := stop = .endless ∨ ∃ name ∈ stop.unboundName?, m.IsKeyword name

section Laws

variable {α : Type} [Checkable α]

/-- The same answer or error, on corresponding machines. -/
inductive Alike {β : Type} : EStateM.Result Stop Machine β → EStateM.Result Stop Machine β → Prop
  | ok (b : β) {n n' : Machine} : n.Corresponds n' → Alike (.ok b n) (.ok b n')
  | error (stop : Stop) {n n' : Machine} : n.Corresponds n' → Alike (.error stop n) (.error stop n')

namespace Alike

variable {β : Type} {n : Machine} {r : EStateM.Result Stop Machine β}

theorem exists_ok {b : β} (h : Alike (.ok b n) r) : ∃ n', r = .ok b n' ∧ n.Corresponds n' := by
  cases h with
  | ok _ hn => exact ⟨_, rfl, hn⟩

theorem exists_error {stop : Stop} (h : Alike (.error stop n) r) :
    ∃ n', r = .error stop n' ∧ n.Corresponds n' := by
  cases h with
  | error _ hn => exact ⟨_, rfl, hn⟩

end Alike

/-- What is left to show of an operation that keeps the standard and makes known changes only. -/
theorem keeps_layouts {x : Run α} (hmoves : x.Moves) (hsame : (same oldValues false).Keeps x)
    (h : ∀ {m m'}, layouts.related m m' → (x.after m).Separated →
      (∃ stop n, x m = .error stop n ∧ layouts.excused stop n) ∨ Alike (x m) (x m')) :
    layouts.Keeps x := by
  have hmeets : ∀ {m a n}, m.Upholds oldValues → x m = .ok a n → Meets oldValues a :=
    fun hm hx => (hsame.ok ⟨rfl, hm⟩ hx).1
  have hupholds : ∀ {m : Machine}, m.Upholds oldValues → (x.after m).Upholds oldValues :=
    fun hm => upholds_after hsame hm
  -- separation is never regained, so what is lost stays lost
  have hlost : ∀ {m : Machine}, layouts.lost m → layouts.lost (x.after m) := fun {m} hm =>
    ⟨fun h => hm.1 ((hmoves m).separated h), hupholds hm.2⟩
  refine ⟨?ok, ?error, ?lostOk, ?lostError⟩
  case ok =>
    intro m m' a n hm hx
    have hn := hupholds hm.2.2
    have hcases := h hm
    rw [Run.after_of_ok hx, hx] at hcases
    rw [Run.after_of_ok hx] at hn
    refine ⟨hmeets hm.2.2 hx, ?_⟩
    by_cases hseparated : n.Separated
    · rcases hcases hseparated with ⟨stop, n', hstop, -⟩ | halike
      · cases hstop
      · obtain ⟨n', hx', hcorresponds⟩ := halike.exists_ok
        exact .inr ⟨n', hx', hcorresponds, hseparated, hn⟩
    · exact .inl ⟨hseparated, hn⟩
  case error =>
    intro m m' stop n hm hx
    have hn := hupholds hm.2.2
    have hcases := h hm
    rw [Run.after_of_error hx, hx] at hcases
    rw [Run.after_of_error hx] at hn
    by_cases hseparated : n.Separated
    · rcases hcases hseparated with ⟨stop', n', hstop, hexcused⟩ | halike
      · cases hstop
        exact .inr (.inl hexcused)
      · obtain ⟨n', hx', hcorresponds⟩ := halike.exists_error
        exact .inr (.inr ⟨n', hx', hcorresponds, hseparated, hn⟩)
    · exact .inl ⟨hseparated, hn⟩
  case lostOk =>
    intro m a n hm hx
    have hn := hlost hm
    rw [Run.after_of_ok hx] at hn
    exact ⟨hmeets hm.2 hx, hn⟩
  case lostError =>
    intro m stop n hm hx
    have hn := hlost hm
    rwa [Run.after_of_error hx] at hn

/-- A change that gives the same answer in both layouts. -/
theorem layouts_keeps_modifyGet {f : Machine → α × Machine} (hmoves : Run.Moves (modifyGet f))
    (hsame : (same oldValues false).Keeps (modifyGet f : Run α))
    (hf : ∀ {m m' : Machine}, m.Corresponds m' →
      (f m').1 = (f m).1 ∧ (f m).2.Corresponds (f m').2) :
    layouts.Keeps (modifyGet f : Run α) := by
  refine keeps_layouts hmoves hsame fun {m m'} hm _ => .inr ?_
  obtain ⟨heq, hcorresponds⟩ := hf hm.1
  change Alike (.ok (f m).1 (f m).2) (.ok (f m').1 (f m').2)
  rw [heq]
  exact .ok _ hcorresponds

theorem layouts_keeps_define (name : String) {v : Value} (s : Scope) (hv : Meets oldValues v) :
    layouts.Keeps (Run.define name v s) := by
  refine keeps_layouts (.define name v s) (same_keeps_define name s hv) fun {m m'} hm _ => .inr ?_
  rcases s with ⟨_ | ⟨id, frames⟩, home⟩
  · exact .ok () (hm.1.define home name v)
  · exact .ok () (hm.1.modifyFrame id name v)

theorem layouts_keeps_assign (name : String) {v : Value} (s : Scope) (hv : Meets oldValues v) :
    layouts.Keeps (Run.assign name v s) := by
  refine keeps_layouts (.assign name v s) (same_keeps_assign name s hv) fun {m m'} hm _ => ?_
  unfold Run.assign
  rw [Run.get_bind, Run.get_bind]
  rcases hm.1.find hm.2.1 name s with heq | ⟨hname, hfind | hfind⟩
  · rw [heq]
    cases m.find name s with
    | frame id => exact .inr (.ok () (hm.1.modifyFrame id name v))
    | home id => exact .inr (.ok () (hm.1.define id name v))
    | absent => exact .inr (.error _ hm.1)
    | endless => exact .inl ⟨_, m, rfl, .inl rfl⟩
  · rw [hfind]
    exact .inl ⟨_, m, rfl, .inr ⟨name, rfl, hname⟩⟩
  · rw [hfind]
    exact .inl ⟨_, m, rfl, .inl rfl⟩

theorem layouts_keeps_lookup (name : String) (s : Scope) : layouts.Keeps (Run.lookup name s) := by
  refine keeps_layouts (.lookup name s) (same_keeps_lookup name s) fun {m m'} hm _ => ?_
  unfold Run.lookup
  rw [Run.get_bind, Run.get_bind]
  rcases hm.1.find hm.2.1 name s with heq | ⟨hname, hfind | hfind⟩
  · rw [heq]
    cases hfind : m.find name s with
    | frame id =>
      have hframe : m'.frame id = m.frame id := by
        unfold Machine.frame
        rw [hm.1.frames]
      dsimp only
      rw [hframe]
      exact .inr (.ok _ hm.1)
    | home id =>
      dsimp only
      rw [hm.1.get?_of_has (Machine.has_of_find hfind)]
      exact .inr (.ok _ hm.1)
    | absent =>
      dsimp only
      rw [hm.1.name]
      exact .inr (.error _ hm.1)
    | endless => exact .inl ⟨_, m, rfl, .inl rfl⟩
  · rw [hfind]
    exact .inl ⟨_, m, rfl, .inr ⟨name, rfl, hname⟩⟩
  · rw [hfind]
    exact .inl ⟨_, m, rfl, .inl rfl⟩

theorem layouts_keeps_keywordIn? (name : String) (id : Nat) :
    layouts.Keeps (Run.keywordIn? name id) := by
  refine keeps_layouts (.keywordIn? name id) (same_keeps_keywordIn? name id) fun {m m'} hm _ => ?_
  obtain ⟨hcorresponds, hseparated, hupholds⟩ := hm
  have hmodern := hcorresponds.keywordsAreValues
  rw [Run.keywordIn?_of_expanders hcorresponds.old]
  -- a name that is no keyword may be found in the new layout, as a variable with another value
  by_cases hname : m.IsKeyword name
  · have hsearch' := hcorresponds.searchKeyword_eq hseparated hname id
    cases hsearch : m.searchExpander name id with
    | found home =>
      rw [hsearch] at hsearch'
      obtain ⟨k, hk⟩ := Option.isSome_iff_exists.mp (Machine.owns_of_searchFrom hsearch)
      rw [Run.keywordIn?_of_keyword hmodern hsearch' (hcorresponds.get?_of_keyword hseparated hk)]
      dsimp only
      rw [hk]
      exact .inr (.ok _ hcorresponds)
    | absent =>
      rw [Run.keywordIn?_of_absent hmodern (hsearch'.trans hsearch)]
      exact .inr (.ok _ hcorresponds)
    | endless => exact .inl ⟨_, m, rfl, .inl rfl⟩
  · cases hsearch : m.searchExpander name id with
    | found home => exact absurd ⟨home, Machine.owns_of_searchFrom hsearch⟩ hname
    | endless => exact .inl ⟨_, m, rfl, .inl rfl⟩
    | absent =>
      refine .inr ?_
      have hsearch' := hcorresponds.searchVariable_eq hname id
      cases hvariable : m.searchVariable name id with
      | endless => exact absurd hvariable (Machine.searchVariable_ne_endless hname hsearch)
      | absent =>
        rw [Run.keywordIn?_of_absent hmodern (hsearch'.trans hvariable)]
        exact .ok _ hcorresponds
      | found home =>
        have hhas : (m.module home).vars.has name = true := Machine.owns_of_searchFrom hvariable
        obtain ⟨v, hv⟩ := Option.isSome_iff_exists.mp hhas
        have hmeets : Meets oldValues v := meets_get? (hupholds.module home) name v hv
        rw [Run.keywordIn?_of_other hmodern (hsearch'.trans hvariable)
          ((hcorresponds.get?_of_has hhas).trans hv) (ne_keyword hmeets)]
        exact .ok _ hcorresponds

/-- In the new layout the keyword becomes a value, and no variable of the old one is in its way. -/
theorem layouts_keeps_defineKeyword (name : String) (k : Keyword) (id : Nat) :
    layouts.Keeps (Run.defineKeyword name k id) := by
  refine keeps_layouts (.defineKeyword name k id) (same_keeps_defineKeyword name k id)
    fun {m m'} hm hn => .inr ?_
  have hold : Run.defineKeyword name k id m =
      .ok () { m with modules := m.modules.modify id fun d =>
        { d with expanders := d.expanders.put name k } } := by
    unfold Run.defineKeyword
    rw [Run.get_bind, if_neg (by rw [hm.1.old]; decide)]
    rfl
  have hnew : Run.defineKeyword name k id m' =
      .ok () { m' with modules := m'.modules.modify id fun d =>
        { d with vars := d.vars.put name (.keyword k) } } := by
    unfold Run.defineKeyword
    rw [Run.get_bind, if_pos hm.1.keywordsAreValues]
    rfl
  rw [Run.after_of_ok hold] at hn
  rw [hold, hnew]
  refine .ok () (hm.1.defineKeyword id name k fun hid => Table.get?_of_has_eq_false ?_)
  have hkeyword : Machine.IsKeyword { m with modules := m.modules.modify id fun d =>
      { d with expanders := d.expanders.put name k } } name := by
    refine ⟨id, ?_⟩
    rw [Machine.module_modify, if_pos ⟨rfl, hid⟩, Table.has_put]
    simp
  have hvars := hn.has_eq_false hkeyword id
  rwa [Machine.module_modify, if_pos ⟨rfl, hid⟩] at hvars

theorem layouts_keeps_makeModule (name : String) : layouts.Keeps (Run.makeModule name) := by
  refine keeps_layouts (.makeModule name) (same_keeps_makeModule name) fun {m m'} hm _ => .inr ?_
  unfold Run.makeModule
  rw [Run.get_bind, Run.get_bind, hm.1.findModule?]
  cases m.findModule? name with
  | some id => exact .ok id hm.1
  | none =>
    change Alike (.ok m.modules.size _) (.ok m'.modules.size _)
    rw [hm.1.size]
    exact .ok _ (hm.1.pushModule name)

theorem layouts_keeps_closure? (v : Value) : layouts.Keeps (Run.closure? v) := by
  refine keeps_layouts (.closure? v) (same_keeps_closure? v) fun {m m'} hm _ => .inr ?_
  unfold Run.closure?
  split
  · rw [Run.get_bind, Run.get_bind, hm.1.closures]
    exact .ok _ hm.1
  · exact .ok _ hm.1

theorem layouts_keeps_nameClosure (v : Value) (name : String) :
    layouts.Keeps (Run.nameClosure v name) := by
  refine keeps_layouts (.nameClosure v name) (same_keeps_nameClosure v name)
    fun {m m'} hm _ => .inr ?_
  unfold Run.nameClosure
  split
  · next id _ => exact .ok () (hm.1.nameClosure id name)
  · exact .ok () hm.1

theorem layouts_keeps_importModule (id other : Nat) :
    layouts.Keeps (Run.importModule id other) := by
  refine keeps_layouts (.importModule id other) (Lawful.importModule id other)
    fun {m m'} hm _ => .inr ?_
  unfold Run.importModule
  split
  · exact .ok () hm.1
  · exact .ok () (hm.1.importModule id other)

instance : layouts.Lawful where
  objectText hm := hm.1.objectText
  findModule? hm := hm.1.findModule?
  moduleName id hm := hm.1.name id
  isLocal hm := by
    unfold Machine.isLocal Machine.frameOf? Machine.frame
    rw [hm.1.frames]
  current hm := hm.1.current
  disk hm := hm.1.disk
  select id hm := ⟨hm.1.select id, hm.2.1, hm.2.2.keywords, hm.2.2.frames, hm.2.2.modules,
    hm.2.2.closures⟩
  selectLost id hm := ⟨hm.1, hm.2.keywords, hm.2.frames, hm.2.modules, hm.2.closures⟩
  selectExcused id hm := hm
  newTag := layouts_keeps_modifyGet .newTag Lawful.newTag fun hm =>
    ⟨congrArg Identity.fresh hm.nextTag, hm.newTag⟩
  newFrame bindings h := layouts_keeps_modifyGet (.newFrame bindings) (Lawful.newFrame bindings h)
    fun hm => ⟨congrArg Array.size hm.frames, hm.newFrame bindings⟩
  newClosure c h := layouts_keeps_modifyGet (.newClosure c) (Lawful.newClosure c h)
    fun hm => ⟨congrArg (fun closures => Value.closure closures.size) hm.closures, hm.newClosure c⟩
  define name _ s hv := layouts_keeps_define name s hv
  assign name _ s hv := layouts_keeps_assign name s hv
  lookup := layouts_keeps_lookup
  keywordIn? := layouts_keeps_keywordIn?
  defineKeyword := layouts_keeps_defineKeyword
  closure? := layouts_keeps_closure?
  nameClosure := layouts_keeps_nameClosure
  writeTo p text := layouts_keeps_modifyGet (.writeTo p text) (Lawful.writeTo p text)
    fun hm => ⟨rfl, hm.writeTo p text⟩
  makeModule := layouts_keeps_makeModule
  exportNames id names := layouts_keeps_modifyGet (.exportNames id names)
    (Lawful.exportNames id names) fun hm => ⟨rfl, hm.exportNames id names⟩
  importModule := layouts_keeps_importModule

end Laws

end Link

end LiveScheme
