import LiveScheme.Service.Connection

/-!
# What a machine can become

Whatever a program does to its machine is a sequence of a few kinds of change: new identities,
frames, closures and modules, bindings, output, and the book-keeping of connections. Two kinds of
change enclose others: a module that is current for a while, and output that is captured. An
evaluation that ends with an error has changed the machine up to that point, so the relation holds
for the machine in which a program ends, however it ends.
-/

namespace LiveScheme

section Sequencing

variable {ε σ α β : Type} {x : EStateM ε σ α} {f : α → EStateM ε σ β} {s s' : σ}

theorem bind_of_ok {a : α} (h : x s = .ok a s') : (x >>= f) s = f a s' := by
  change EStateM.bind x f s = _
  rw [EStateM.bind, h]

theorem bind_of_error {e : ε} (h : x s = .error e s') : (x >>= f) s = .error e s' := by
  change EStateM.bind x f s = _
  rw [EStateM.bind, h]

theorem exists_of_bind_ok {b : β} (h : (x >>= f) s = .ok b s') :
    ∃ a s₁, x s = .ok a s₁ ∧ f a s₁ = .ok b s' := by
  cases hx : x s with
  | error e s₁ =>
    rw [bind_of_error hx] at h
    cases h
  | ok a s₁ =>
    rw [bind_of_ok hx] at h
    exact ⟨a, s₁, rfl, h⟩

theorem exists_of_run' {a : α} (h : x.run' s = some a) : ∃ s', x s = .ok a s' := by
  unfold EStateM.run' EStateM.run at h
  cases hx : x s with
  | error e s' => rw [hx] at h; cases h
  | ok b s' =>
    rw [hx] at h
    cases h
    exact ⟨s', rfl⟩

end Sequencing

namespace Machine

/-- The machine with a new innermost capture. -/
def beginCapture (m : Machine) : Machine :=
  { m with console := { m.console with captures := "" :: m.console.captures } }

/-- The machine without its innermost capture. -/
def endCapture (m : Machine) : Machine :=
  { m with console := { m.console with captures := m.console.captures.drop 1 } }

/-- The changes that evaluation can make to a machine. -/
inductive Becomes : Machine → Machine → Prop
  | refl (m : Machine) : Becomes m m
  | trans {m m' m'' : Machine} : Becomes m m' → Becomes m' m'' → Becomes m m''
  | newTag (m : Machine) : Becomes m { m with nextTag := m.nextTag + 1 }
  | newFrame (m : Machine) (bindings : Table Value) :
    Becomes m { m with frames := m.frames.push bindings }
  | newClosure (m : Machine) (c : Closure) : Becomes m { m with closures := m.closures.push c }
  | newModule (m : Machine) (name : String) : m.findModule? name = none →
    Becomes m { m with modules := m.modules.push (Module.fresh name [schemeId]) }
  | bind (m : Machine) (id : Nat) (name : String) (v : Value) :
    Becomes m { m with frames := m.frames.modify id (·.put name v) }
  | define (m : Machine) (id : Nat) (name : String) (v : Value) :
    Becomes m { m with modules := m.modules.modify id fun d =>
      { d with vars := d.vars.put name v } }
  | defineKeyword (m : Machine) (id : Nat) (name : String) (k : Keyword) :
    m.keywordsAreValues = false →
    Becomes m { m with modules := m.modules.modify id fun d =>
      { d with expanders := d.expanders.put name k } }
  | exportNames (m : Machine) (id : Nat) (names : List String) :
    Becomes m { m with modules := m.modules.modify id fun d =>
      { d with exports := names.foldl Run.addName d.exports } }
  | importModule (m : Machine) (id other : Nat) : id ≠ other →
    Becomes m { m with modules := m.modules.modify id fun d =>
      { d with imports := if d.imports.contains other then d.imports else d.imports ++ [other] } }
  | nameClosure (m : Machine) (id : Nat) (name : String) :
    Becomes m { m with closures := m.closures.modify id fun c =>
      { c with name := c.name <|> some name } }
  | selectModule (m : Machine) (name : String) (id : Nat) : m.findModule? name = some id →
    Becomes m { m with current := id }
  | print (m : Machine) (p : Port) (text : String) :
    Becomes m { m with console := m.console.write p text }
  | addPath (m : Machine) (id : Nat) (path : String) :
    Becomes m { m with connections := m.connections.modify id (·.addPath path) }
  | closeLog (m : Machine) (id : Nat) :
    Becomes m { m with connections := m.connections.modify id fun c => { c with logFile := none } }
  | startLog (m : Machine) (id : Nat) (path : String) (disk : Disk) :
    path.toList.contains '\x00' = false → m.disk.append path "" = .ok disk →
    Becomes m { m with
      connections := m.connections.modify id fun c => { c with logFile := some path }, disk }
  | append (m : Machine) (path text : String) (disk : Disk) : m.disk.append path text = .ok disk →
    Becomes m { m with disk }
  | openConnection (m : Machine) (loadPath : List String) :
    Becomes m { m with connections := m.connections.push ⟨loadPath, none⟩ }
  | within (m m' : Machine) (id : Nat) : Becomes { m with current := id } m' →
    Becomes m { m' with current := m.current }
  | capturing (m m' : Machine) : Becomes m.beginCapture m' → Becomes m m'.endCapture

end Machine

namespace Run

variable {α β : Type}

/-- The machine in which a program ends, by whatever outcome. -/
def after (x : Run α) (m : Machine) : Machine :=
  match x m with
  | .ok _ m' | .error _ m' => m'

/-- A program that only makes changes of the known kinds. -/
def Moves (x : Run α) : Prop := ∀ m : Machine, m.Becomes (x.after m)

theorem get_bind (f : Machine → Run α) (m : Machine) : (get >>= f) m = f m m := rfl

theorem within_of_ok {x : Run α} {a : α} {m n : Machine} {id : Nat}
    (h : x { m with current := id } = .ok a n) :
    within id x m = .ok a { n with current := m.current } := by
  change ensuring x (fun n => { n with current := m.current }) { m with current := id } = _
  rw [ensuring, h]

theorem within_of_error {x : Run α} {stop : Stop} {m n : Machine} {id : Nat}
    (h : x { m with current := id } = .error stop n) :
    within id x m = .error stop { n with current := m.current } := by
  change ensuring x (fun n => { n with current := m.current }) { m with current := id } = _
  rw [ensuring, h]

theorem error_of_attempt {x : Run α} {stop : Stop} {m n : Machine}
    (h : attempt x m = .ok (.error stop) n) : x m = .error stop n := by
  unfold attempt at h
  split at h
  · cases h
  · next hx => cases h; exact hx

/-- What is left of beginning a log when the one before is closed. -/
def openLog (id : Nat) (path : String) : Run Unit := do
  appendTo path ""
  modifyConnection id fun c => { c with logFile := some path }

theorem capturing_of_ok {x : Run α} {a : α} {m m' : Machine} (h : x m.beginCapture = .ok a m') :
    capturing x m = .ok (.ok a, m'.console.captures.headD "") m'.endCapture := by
  have hx : attempt x m.beginCapture = .ok (.ok a) m' := by rw [attempt, h]
  exact bind_of_ok (x := attempt x) hx

theorem capturing_of_error {x : Run α} {stop : Stop} {m m' : Machine}
    (h : x m.beginCapture = .error stop m') :
    capturing x m = .ok (.error stop, m'.console.captures.headD "") m'.endCapture := by
  have hx : attempt x m.beginCapture = .ok (.error stop) m' := by rw [attempt, h]
  exact bind_of_ok (x := attempt x) hx

theorem appendTo_of_noZero {path : String} (text : String) (m : Machine)
    (hz : path.toList.contains '\x00' = false) :
    appendTo path text m = (match m.disk.append path text with
      | .ok disk => .ok () { m with disk }
      | .error problem => .error (.fault (.file problem (Text.quotedString path))) m) := by
  unfold appendTo
  rw [hz, if_neg (by decide)]
  dsimp only
  rw [get_bind]
  cases m.disk.append path text <;> rfl

theorem appendTo_of_ok {path text : String} {m : Machine} {disk : Disk}
    (hz : path.toList.contains '\x00' = false) (hd : m.disk.append path text = .ok disk) :
    appendTo path text m = .ok () { m with disk } := by
  rw [appendTo_of_noZero text m hz, hd]

/-- A text that cannot be appended leaves the machine as it is. -/
theorem appendTo_of_not {path : String} (text : String) (m : Machine)
    (h : path.toList.contains '\x00' = true ∨ ∃ problem, m.disk.append path text = .error problem) :
    ∃ f, appendTo path text m = .error (.fault f) m := by
  cases hz : path.toList.contains '\x00' with
  | true =>
    unfold appendTo
    rw [hz]
    exact ⟨_, rfl⟩
  | false =>
    rw [hz] at h
    obtain ⟨problem, hd⟩ := h.resolve_left (by decide)
    rw [appendTo_of_noZero text m hz, hd]
    exact ⟨_, rfl⟩

theorem after_of_ok {x : Run α} {a : α} {m m' : Machine} (h : x m = .ok a m') : x.after m = m' := by
  rw [after, h]

theorem after_of_error {x : Run α} {stop : Stop} {m m' : Machine} (h : x m = .error stop m') :
    x.after m = m' := by
  rw [after, h]

namespace Moves

@[grind .] theorem pure (a : α) : Moves (Pure.pure a) := fun m => .refl m

@[grind .] theorem throw (stop : Stop) : Moves (throw stop : Run α) := fun m => .refl m

@[grind .] theorem get : Moves get := fun m => .refl m

@[grind ←] theorem bind {x : Run α} {f : α → Run β} (hx : x.Moves) (hf : ∀ a, (f a).Moves) :
    Moves (x >>= f) := by
  intro m
  have hm := hx m
  cases h : x m with
  | error stop m' =>
    rw [after_of_error h] at hm
    rwa [after_of_error (bind_of_error h)]
  | ok a m' =>
    rw [after_of_ok h] at hm
    rw [after, bind_of_ok h]
    exact hm.trans (hf a m')

theorem ite {c : Prop} [Decidable c] {x y : Run α} (hx : x.Moves) (hy : y.Moves) :
    (if c then x else y).Moves := by
  split
  · exact hx
  · exact hy

/-- A change to the machine that the relation knows, with the value it answers. -/
theorem answering {f : Machine → α × Machine} (h : ∀ m : Machine, m.Becomes (f m).2) :
    Moves (modifyGet f) := h

theorem changing {f : Machine → Machine} (h : ∀ m : Machine, m.Becomes (f m)) :
    Moves (modify f) := h

@[grind .] theorem newTag : Moves Run.newTag := answering Machine.Becomes.newTag

@[grind .] theorem newFrame (bindings : Table Value) : (Run.newFrame bindings).Moves :=
  answering fun m => .newFrame m bindings

@[grind .] theorem newClosure (c : Closure) : (Run.newClosure c).Moves :=
  answering fun m => .newClosure m c

@[grind .] theorem define (name : String) (v : Value) (s : Scope) :
    (Run.define name v s).Moves := by
  unfold Run.define
  split
  · exact changing fun m => .bind m _ name v
  · exact changing fun m => .define m s.home name v

@[grind .] theorem assign (name : String) (v : Value) (s : Scope) :
    (Run.assign name v s).Moves := by
  refine get.bind fun m => ?_
  cases m.find name s with
  | frame id => exact changing fun m => .bind m id name v
  | home id => exact changing fun m => .define m id name v
  | absent | endless => exact throw _

@[grind .] theorem defineKeyword (name : String) (k : Keyword) (id : Nat) :
    (Run.defineKeyword name k id).Moves := by
  intro m
  change m.Becomes ((if m.keywordsAreValues then _ else _ : Run Unit).after m)
  split
  · exact .define m id name (.keyword k)
  · next hlegacy => exact .defineKeyword m id name k (by simpa using hlegacy)

@[grind .] theorem nameClosure (v : Value) (name : String) : (Run.nameClosure v name).Moves := by
  unfold Run.nameClosure
  split
  · exact changing fun m => .nameClosure m _ name
  · exact pure _

@[grind .] theorem writeTo (p : Port) (text : String) : (Run.writeTo p text).Moves :=
  changing fun m => .print m p text

@[grind .] theorem exportNames (id : Nat) (names : List String) :
    (Run.exportNames id names).Moves :=
  changing fun m => .exportNames m id names

@[grind .] theorem importModule (id other : Nat) : (Run.importModule id other).Moves := by
  unfold Run.importModule
  split
  · exact pure ()
  · next hne => exact changing fun m => .importModule m id other hne

@[grind .] theorem makeModule (name : String) : (Run.makeModule name).Moves := by
  intro m
  unfold after Run.makeModule
  rw [get_bind]
  cases h : m.findModule? name with
  | some id => exact .refl m
  | none => exact .newModule m name h

/-- The previous module is current again, whatever happened. -/
@[grind ←] theorem within (id : Nat) {x : Run α} (hx : x.Moves) : (Run.within id x).Moves := by
  intro m
  have hm := hx { m with current := id }
  cases h : x { m with current := id } with
  | ok a m' =>
    rw [after_of_ok h] at hm
    rw [after_of_ok (within_of_ok h)]
    exact .within m m' id hm
  | error stop m' =>
    rw [after_of_error h] at hm
    rw [after_of_error (within_of_error h)]
    exact .within m m' id hm

/-- Captured output is dropped together with its capture. -/
@[grind ←] theorem capturing {x : Run α} (hx : x.Moves) : (Run.capturing x).Moves := by
  intro m
  have hm := hx m.beginCapture
  cases h : x m.beginCapture with
  | ok a m' =>
    rw [after_of_ok h] at hm
    rw [after_of_ok (capturing_of_ok h)]
    exact .capturing m m' hm
  | error stop m' =>
    rw [after_of_error h] at hm
    rw [after_of_ok (capturing_of_error h)]
    exact .capturing m m' hm

@[grind .] theorem connection (id : Nat) : (Run.connection id).Moves := get.bind fun _ => pure _

@[grind .] theorem closeLog (id : Nat) : (Run.closeLog id).Moves := changing fun m => .closeLog m id

@[grind .] theorem appendTo (path text : String) : (Run.appendTo path text).Moves := by
  intro m
  by_cases hz : path.toList.contains '\x00' = true
  · obtain ⟨f, hf⟩ := appendTo_of_not text m (.inl hz)
    rw [after_of_error hf]
    exact .refl m
  cases hd : m.disk.append path text with
  | error problem =>
    obtain ⟨f, hf⟩ := appendTo_of_not _ m (.inr ⟨problem, hd⟩)
    rw [after_of_error hf]
    exact .refl m
  | ok disk =>
    rw [after_of_ok (appendTo_of_ok (by simpa using hz) hd)]
    exact .append m path text disk hd

@[grind .] theorem openLog (id : Nat) (path : String) : (Run.openLog id path).Moves := by
  intro m
  unfold after Run.openLog
  by_cases hz : path.toList.contains '\x00' = true
  · obtain ⟨f, hf⟩ := appendTo_of_not "" m (.inl hz)
    rw [bind_of_error hf]
    exact .refl m
  cases hd : m.disk.append path "" with
  | error problem =>
    obtain ⟨f, hf⟩ := appendTo_of_not _ m (.inr ⟨problem, hd⟩)
    rw [bind_of_error hf]
    exact .refl m
  | ok disk =>
    have hz' : path.toList.contains '\x00' = false := by simpa using hz
    rw [bind_of_ok (appendTo_of_ok hz' hd)]
    exact .startLog m id path disk hz' hd

@[grind .] theorem startLogging (id : Nat) (path : String) : (Run.startLogging id path).Moves :=
  (closeLog id).bind fun _ => openLog id path

@[grind .] theorem openConnection (loadPath : List String) (logFile : Option String) :
    (Run.openConnection loadPath logFile).Moves := by
  unfold Run.openConnection
  refine (answering fun m => .openConnection m loadPath).bind fun id => ?_
  grind

@[grind .] theorem bindServices (id : Nat) (services : List Service) :
    (Run.bindServices id services).Moves := by
  induction services with
  | nil => exact pure ()
  | cons service rest ih => exact (define _ _ _).bind fun _ => (exportNames _ _).bind fun _ => ih

@[grind .] theorem logExchange (id : Nat) (request reply : String) :
    (Run.logExchange id request reply).Moves := by
  unfold Run.logExchange
  grind

theorem addPath (id : Nat) (path : String) : (modifyConnection id (·.addPath path)).Moves :=
  changing fun m => .addPath m id path
end Moves

end Run

end LiveScheme
