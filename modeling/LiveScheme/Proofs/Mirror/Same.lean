import LiveScheme.Proofs.Mirror.Evaluation

/-!
# Machines that live up to a standard

A machine upholds a standard when everything that its frames, modules and closures hold lives up to
it. A machine is compared with itself here: a run on a machine that upholds the standard leaves one
that does, and answers values that live up to it.
-/

namespace LiveScheme

section Arrays

variable {α : Type} [Checkable α] {S : Standard}

instance : Checkable (Array α) := ⟨fun S a => ∀ x ∈ a, Meets S x⟩

theorem meets_push {a : Array α} {x : α} (h : Meets S a) (hx : Meets S x) :
    Meets S (a.push x) := by
  intro y hy
  rcases Array.mem_push.mp hy with hy | rfl
  · exact h y hy
  · exact hx

theorem meets_modify {a : Array α} {f : α → α} (h : Meets S a) (id : Nat)
    (hf : ∀ x, Meets S x → Meets S (f x)) : Meets S (a.modify id f) := by
  intro y hy
  obtain ⟨i, hi⟩ := Array.mem_iff_getElem?.mp hy
  rw [Array.getElem?_modify] at hi
  split at hi
  · obtain ⟨x, hx, rfl⟩ := Option.map_eq_some_iff.mp hi
    exact hf x (h x (Array.mem_of_getElem? hx))
  · exact h y (Array.mem_of_getElem? hi)

theorem meets_array_get? {a : Array α} (h : Meets S a) (id : Nat) : Meets S a[id]? :=
  fun x hx => h x (Array.mem_of_getElem? hx)

theorem meets_array_getD {a : Array α} {x : α} (h : Meets S a) (hx : Meets S x) (id : Nat) :
    Meets S (a.getD id x) := by
  rw [Array.getD_eq_getD_getElem?]
  exact meets_getD (meets_array_get? h id) hx

theorem meets_get? {table : Table Value} (h : Meets S table) (name : String) :
    Meets S (table.get? name) := by
  induction table with
  | nil => exact meets_none.mpr trivial
  | cons entry rest ih =>
    obtain ⟨hentry, hrest⟩ := meets_cons.mp h
    unfold Table.get?
    split
    · exact meets_some.mpr hentry.2
    · exact ih hrest

end Arrays

instance : Checkable Module := ⟨fun S d => Meets S d.vars⟩

/-- Everything that the machine holds lives up to the standard. -/
structure Machine.Upholds (S : Standard) (m : Machine) : Prop where
  keywords : m.keywordsAreValues = true → S.keywords = true
  frames : Meets S m.frames
  modules : Meets S m.modules
  closures : Meets S m.closures

namespace Machine.Upholds

variable {S : Standard} {m : Machine}

theorem frame (h : m.Upholds S) (id : Nat) : Meets S (m.frame id) :=
  meets_array_getD h.frames (meets_nil.mpr trivial) id

theorem module (h : m.Upholds S) (id : Nat) : Meets S (m.module id).vars :=
  meets_array_getD (x := default) h.modules (meets_nil.mpr trivial) id

end Machine.Upholds

theorem Machine.fresh_eq_ok {version : String} {disk : Disk} {m : Machine}
    (h : fresh version disk = .ok m) : ∃ modern, m = initial version modern disk := by
  unfold fresh at h
  cases hparse : Version.parse version with
  | error f => rw [hparse] at h; cases h
  | ok parts =>
    rw [hparse] at h
    cases h
    exact ⟨_, rfl⟩

theorem Machine.fresh_of_parse {version : String} {parts : List Nat}
    (h : Version.parse version = .ok parts) (disk : Disk) :
    fresh version disk = .ok (initial version (Version.order parts [1, 70] != .lt) disk) := by
  rw [fresh, h]
  rfl

theorem Machine.upholds_initial {S : Standard} {modern : Bool}
    (h : modern = true → S.keywords = true) (version : String) (disk : Disk) :
    (initial version modern disk).Upholds S := by
  have hbuiltin : ∀ b : Builtin, Meets S (Value.primitive (.builtin b)) := fun b =>
    meets_object.mpr ⟨rfl, meets_nil.mpr trivial⟩
  have hbase : Meets S (baseModule modern).vars := by
    intro entry hentry
    cases modern with
    | false =>
      obtain ⟨b, -, rfl⟩ := List.mem_map.mp hentry
      exact ⟨trivial, hbuiltin b⟩
    | true =>
      rcases List.mem_append.mp hentry with hentry | hentry
      · obtain ⟨f, -, rfl⟩ := List.mem_map.mp hentry
        exact ⟨trivial, meets_object.mpr ⟨h rfl, meets_nil.mpr trivial⟩⟩
      · obtain ⟨b, -, rfl⟩ := List.mem_map.mp hentry
        exact ⟨trivial, hbuiltin b⟩
  refine ⟨h, fun t ht => ?_, fun d hd => ?_, fun c hc => ?_⟩
  · exact absurd ht (Array.not_mem_empty t)
  · rcases Array.mem_def.mp hd with _ | ⟨_, _ | ⟨_, hd⟩⟩
    · exact hbase
    · exact meets_nil.mpr trivial
    · cases hd
  · exact absurd hc (Array.not_mem_empty c)

namespace Link

/-- Machines that uphold the standard, each compared with itself. A run that stops before its end
may be excused. -/
def same (S : Standard) (lax : Bool) : Link where
  standard := S
  related m m' := m' = m ∧ m.Upholds S
  lost _ := False
  excused stop m := lax = true ∧ stop = .endless ∧ m.Upholds S

variable {S : Standard} {lax : Bool} {α β : Type} [Checkable α] [Checkable β]

@[simp, grind =] theorem same_standard : (same S lax).standard = S := rfl

theorem forgiving_same : (same S true).Forgiving := fun hm => ⟨rfl, rfl, hm.2⟩

theorem keeps_same {x : Run α}
    (hok : ∀ {m a n}, m.Upholds S → x m = .ok a n → Meets S a ∧ n.Upholds S)
    (herror : ∀ {m stop n}, m.Upholds S → x m = .error stop n → n.Upholds S) :
    (same S lax).Keeps x where
  ok hm hx := by
    obtain ⟨rfl, hm⟩ := hm
    obtain ⟨ha, hn⟩ := hok hm hx
    exact ⟨ha, .inr ⟨_, hx, rfl, hn⟩⟩
  error hm hx := by
    obtain ⟨rfl, hm⟩ := hm
    exact .inr (.inr ⟨_, hx, rfl, herror hm hx⟩)
  lostOk hm := hm.elim
  lostError hm := hm.elim

theorem same_mirrors_get {f f' : Machine → Run α}
    (hf : ∀ m : Machine, m.Upholds S → (same S lax).Mirrors (f m) (f' m)) :
    (same S lax).Mirrors (get >>= f) (get >>= f') where
  ok hm hx := by
    obtain ⟨rfl, hm⟩ := hm
    exact (hf _ hm).ok ⟨rfl, hm⟩ hx
  error hm hx := by
    obtain ⟨rfl, hm⟩ := hm
    exact (hf _ hm).error ⟨rfl, hm⟩ hx
  lostOk hm := hm.elim
  lostError hm := hm.elim

theorem same_keeps_modifyGet {f : Machine → α × Machine}
    (hf : ∀ m : Machine, m.Upholds S → Meets S (f m).1 ∧ (f m).2.Upholds S) :
    (same S lax).Keeps (modifyGet f : Run α) :=
  keeps_same (fun hm hx => by cases hx; exact hf _ hm) fun _ hx => by cases hx

theorem same_keeps_modify {f : Machine → Machine}
    (hf : ∀ m : Machine, m.Upholds S → (f m).Upholds S) :
    (same S lax).Keeps (modify f : Run Unit) :=
  same_keeps_modifyGet fun m hm => ⟨trivial, hf m hm⟩

theorem same_keeps_modifyModule (id : Nat) {f : Module → Module}
    (hf : ∀ d : Module, Meets S d.vars → Meets S (f d).vars) :
    (same S lax).Keeps (Run.modifyModule id f) :=
  same_keeps_modify fun _ hm => ⟨hm.keywords, hm.frames, meets_modify hm.modules id hf, hm.closures⟩

theorem same_keeps_modifyFrame (id : Nat) {f : Table Value → Table Value}
    (hf : ∀ t : Table Value, Meets S t → Meets S (f t)) :
    (same S lax).Keeps (Run.modifyFrame id f) :=
  same_keeps_modify fun _ hm => ⟨hm.keywords, meets_modify hm.frames id hf, hm.modules, hm.closures⟩

theorem same_keeps_modifyClosure (id : Nat) {f : Closure → Closure}
    (hf : ∀ c : Closure, Meets S c → Meets S (f c)) :
    (same S lax).Keeps (modify fun m => { m with closures := m.closures.modify id f } : Run Unit) :=
  same_keeps_modify fun _ hm => ⟨hm.keywords, hm.frames, hm.modules, meets_modify hm.closures id hf⟩

theorem same_keeps_define (name : String) {v : Value} (s : Scope) (hv : Meets S v) :
    (same S lax).Keeps (Run.define name v s) := by
  unfold Run.define
  split
  · exact same_keeps_modifyFrame _ fun _ ht => Closure.meets_put ht hv
  · exact same_keeps_modifyModule _ fun _ hd => Closure.meets_put hd hv

theorem same_keeps_assign (name : String) {v : Value} (s : Scope) (hv : Meets S v) :
    (same S lax).Keeps (Run.assign name v s) := by
  refine same_mirrors_get fun m hm => ?_
  cases m.find name s with
  | frame id => exact same_keeps_modifyFrame _ fun _ ht => Closure.meets_put ht hv
  | home id => exact same_keeps_modifyModule _ fun _ hd => Closure.meets_put hd hv
  | absent => exact .fail _
  | endless => exact .throw _

theorem same_keeps_lookup (name : String) (s : Scope) : (same S lax).Keeps (Run.lookup name s) := by
  refine same_mirrors_get fun m hm => ?_
  cases m.find name s with
  | frame id => exact .pure (meets_getD (meets_get? (hm.frame id) name) meets_void)
  | home id => exact .pure (meets_getD (meets_get? (hm.module id) name) meets_void)
  | absent => exact .fail _
  | endless => exact .throw _

theorem same_keeps_valueIn? (name : String) (id : Nat) :
    (same S lax).Keeps (Run.valueIn? name id) := by
  refine same_mirrors_get fun m hm => ?_
  cases m.searchVariable name id with
  | found home =>
    refine .pure fun entry hentry => ?_
    obtain ⟨v, hv, rfl⟩ := Option.map_eq_some_iff.mp hentry
    exact ⟨meets_get? (hm.module home) name v hv, trivial⟩
  | absent => exact .pure (meets_none.mpr trivial)
  | endless => exact .throw _

theorem same_keeps_keywordIn? (name : String) (id : Nat) :
    (same S lax).Keeps (Run.keywordIn? name id) := by
  refine same_mirrors_get fun m hm =>
    .ite (.bind (same_keeps_valueIn? name id) fun found _ => ?_) ?_
  · split <;> exact .pure (meets_plain_option _)
  · cases m.searchExpander name id with
    | found home => exact .pure (meets_plain_option _)
    | absent => exact .pure (meets_plain_option _)
    | endless => exact .throw _

theorem same_keeps_defineKeyword (name : String) (k : Keyword) (id : Nat) :
    (same S lax).Keeps (Run.defineKeyword name k id) := by
  refine same_mirrors_get fun m hm => ?_
  split
  · next hmodern =>
    refine same_keeps_modifyModule id fun d hd => Closure.meets_put hd ?_
    exact meets_object.mpr ⟨hm.keywords hmodern, meets_nil.mpr trivial⟩
  · exact same_keeps_modifyModule id fun d hd => hd

theorem same_keeps_closure? (v : Value) : (same S lax).Keeps (Run.closure? v) := by
  unfold Run.closure?
  split
  · exact same_mirrors_get fun m hm => .pure (meets_array_get? hm.closures _)
  · exact .pure (meets_none.mpr trivial)

theorem same_keeps_nameClosure (v : Value) (name : String) :
    (same S lax).Keeps (Run.nameClosure v name) := by
  unfold Run.nameClosure
  split
  · exact same_keeps_modifyClosure _ fun c hc => ⟨hc.1, hc.2⟩
  · exact .pure trivial

theorem same_keeps_makeModule (name : String) : (same S lax).Keeps (Run.makeModule name) := by
  refine same_mirrors_get fun m hm => ?_
  cases m.findModule? name with
  | some id => exact .pure trivial
  | none =>
    exact same_keeps_modifyGet fun m hm => ⟨trivial, hm.keywords, hm.frames,
      meets_push hm.modules (meets_nil.mpr trivial), hm.closures⟩

theorem same_keeps_version (args : List Value) : (same S lax).Keeps (Primitive.version args) := by
  unfold Primitive.version Primitive.checkCount
  exact .bind (.ite (.fail _) (.pure trivial)) fun _ _ =>
    same_mirrors_get fun m _ => .pure (meets_str _ _)

instance : (same S lax).Lawful where
  objectText hm := by rw [hm.1]
  findModule? hm := by rw [hm.1]
  moduleName _ hm := by rw [hm.1]
  isLocal hm := by rw [hm.1]
  current hm := by rw [hm.1]
  disk hm := by rw [hm.1]
  select _ hm := by
    obtain ⟨rfl, hm⟩ := hm
    exact ⟨rfl, hm.keywords, hm.frames, hm.modules, hm.closures⟩
  selectLost _ hm := hm
  selectExcused _ hm :=
    ⟨hm.1, hm.2.1, hm.2.2.keywords, hm.2.2.frames, hm.2.2.modules, hm.2.2.closures⟩
  newTag := same_keeps_modifyGet fun _ hm =>
    ⟨trivial, hm.keywords, hm.frames, hm.modules, hm.closures⟩
  newFrame _ h := same_keeps_modifyGet fun _ hm =>
    ⟨trivial, hm.keywords, meets_push hm.frames h, hm.modules, hm.closures⟩
  newClosure _ h := same_keeps_modifyGet fun _ hm =>
    ⟨meets_object.mpr ⟨rfl, meets_nil.mpr trivial⟩, hm.keywords, hm.frames, hm.modules,
      meets_push hm.closures h⟩
  define name _ s hv := same_keeps_define name s hv
  assign name _ s hv := same_keeps_assign name s hv
  lookup := same_keeps_lookup
  keywordIn? := same_keeps_keywordIn?
  defineKeyword := same_keeps_defineKeyword
  closure? := same_keeps_closure?
  nameClosure := same_keeps_nameClosure
  writeTo _ _ := same_keeps_modify fun _ hm => ⟨hm.keywords, hm.frames, hm.modules, hm.closures⟩
  makeModule := same_keeps_makeModule
  exportNames id names := same_keeps_modifyModule id fun _ hd => hd
  importModule id other := by
    unfold Run.importModule
    split
    · exact .pure trivial
    · exact same_keeps_modifyModule id fun _ hd => hd

end Link

end LiveScheme
