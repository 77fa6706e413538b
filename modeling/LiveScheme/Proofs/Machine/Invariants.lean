import LiveScheme.Proofs.Machine.Becomes
import LiveScheme.Proofs.Machine.Files

/-!
# Invariants of machines

What holds of a machine whatever a program does to it: files stay, captures are closed in the order
in which they were opened, and the log of a connection can always be written to. Each is an
induction over the changes that a machine can undergo.
-/

namespace LiveScheme.Machine

namespace Becomes

theorem grows {m m' : Machine} (h : m.Becomes m') : m.disk.Grows m'.disk := by
  induction h with
  | trans _ _ ih ih' => exact ih.trans ih'
  | startLog m id path disk _ hd => exact Disk.grows_append hd
  | append m path text disk hd => exact Disk.grows_append hd
  | within m m' id _ ih => exact ih
  | capturing m m' _ ih => exact ih
  | _ => exact .refl _

/-- Only the innermost capture takes up output; the captures around it stay as they are. -/
theorem captures {m m' : Machine} (h : m.Becomes m') :
    m'.console.captures.length = m.console.captures.length ∧
      m'.console.captures.drop 1 = m.console.captures.drop 1 := by
  induction h with
  | trans _ _ ih ih' => exact ⟨ih'.1.trans ih.1, ih'.2.trans ih.2⟩
  | print m p text =>
    cases hc : m.console.captures with
    | nil => cases p <;> simp [Console.write, hc]
    | cons inner outer => simp [Console.write, hc]
  | within m m' id _ ih => exact ih
  | capturing m m' _ ih =>
    have hdrop : m'.endCapture.console.captures = m.console.captures := ih.2
    rw [hdrop]
    exact ⟨rfl, rfl⟩
  | _ => exact ⟨rfl, rfl⟩

/-- What a capture collects leaves the captures around it alone. -/
theorem captures_endCapture {m m' : Machine} (h : m.beginCapture.Becomes m') :
    m'.endCapture.console.captures = m.console.captures := h.captures.2

/-- While output is captured, the ports themselves receive nothing. -/
theorem ports {m m' : Machine} (h : m.Becomes m') (hc : m.console.captures ≠ []) :
    m'.console.out = m.console.out ∧ m'.console.err = m.console.err := by
  induction h with
  | @trans m m' m'' hfirst _ ih ih' =>
    have hlen : m'.console.captures.length = m.console.captures.length := hfirst.captures.1
    have hc' : m'.console.captures ≠ [] := fun hnil =>
      hc (List.eq_nil_of_length_eq_zero (by rw [← hlen, hnil]; rfl))
    obtain ⟨hout, herr⟩ := ih hc
    obtain ⟨hout', herr'⟩ := ih' hc'
    exact ⟨hout'.trans hout, herr'.trans herr⟩
  | print m p text =>
    cases hcap : m.console.captures with
    | nil => exact absurd hcap hc
    | cons inner outer => simp [Console.write, hcap]
  | within m m' id _ ih => exact ih hc
  | capturing m m' _ ih => exact ih (List.cons_ne_nil _ _)
  | _ => exact ⟨rfl, rfl⟩

/-- A capture that is opened and closed again leaves the console as it was. -/
theorem console_endCapture {m m' : Machine} (h : m.beginCapture.Becomes m') :
    m'.endCapture.console = m.console := by
  obtain ⟨hout, herr⟩ := h.ports (List.cons_ne_nil _ _)
  have hcaptures := h.captures_endCapture
  rw [Console.mk.injEq]
  exact ⟨hout, herr, hcaptures⟩

end Becomes

/-- The log of every connection is a file that can be appended to. -/
def LogsReady (m : Machine) : Prop :=
  ∀ id path, (m.connections.getD id default).logFile = some path → m.disk.Holds path

section Arrays

variable {α : Type}

theorem getD_modify (a : Array α) (id other : Nat) (f : α → α) (d : α) :
    (a.modify id f).getD other d =
      if id = other ∧ other < a.size then f (a.getD other d) else a.getD other d := by
  simp only [Array.getD_eq_getD_getElem?, Array.getElem?_modify]
  by_cases hother : other < a.size
  · by_cases hid : id = other <;> simp [hid, hother]
  · simp [hother]

theorem getD_push (a : Array α) (x : α) (id : Nat) (d : α) :
    (a.push x).getD id d = if id = a.size then x else a.getD id d := by
  simp only [Array.getD_eq_getD_getElem?, Array.getElem?_push]
  split <;> rfl

end Arrays

theorem module_modify (m : Machine) (id j : Nat) (f : Module → Module) :
    module { m with modules := m.modules.modify id f } j =
      if id = j ∧ j < m.modules.size then f (m.module j) else m.module j :=
  getD_modify _ _ _ _ _

theorem frame_modify (m : Machine) (id j : Nat) (f : Table Value → Table Value) :
    frame { m with frames := m.frames.modify id f } j =
      if id = j ∧ j < m.frames.size then f (m.frame j) else m.frame j :=
  getD_modify _ _ _ _ _

/-- A connection may be changed as long as it logs to where it did, or to a file that exists. -/
theorem LogsReady.of_modify {m : Machine} {disk : Disk} {id : Nat} {f : Connection → Connection}
    (h : m.LogsReady) (hd : m.disk.Grows disk)
    (hf : ∀ c path, (f c).logFile = some path → c.logFile = some path ∨ disk.Holds path) :
    ({ m with connections := m.connections.modify id f, disk } : Machine).LogsReady := by
  intro other path hpath
  rw [getD_modify] at hpath
  split at hpath
  · rcases hf _ _ hpath with hold | hnew
    · exact (h other path hold).mono hd
    · exact hnew
  · exact (h other path hpath).mono hd

theorem Becomes.logsReady {m m' : Machine} (h : m.Becomes m') (hm : m.LogsReady) :
    m'.LogsReady := by
  induction h with
  | trans _ _ ih ih' => exact ih' (ih hm)
  | startLog m id path disk hz hd =>
    exact hm.of_modify (Disk.grows_append hd) fun c p hp => by
      cases hp
      exact .inr (Disk.holds_of_append hz hd)
  | append m path text disk hd =>
    exact fun id p hp => (hm id p hp).mono (Disk.grows_append hd)
  | addPath m id path => exact hm.of_modify (.refl _) fun c p hp => .inl hp
  | closeLog m id =>
    refine hm.of_modify (.refl _) fun c p hp => ?_
    cases hp
  | openConnection m loadPath =>
    intro id p hp
    rw [getD_push] at hp
    split at hp
    · cases hp
    · exact hm id p hp
  | within m m' id _ ih => exact ih hm
  | capturing m m' _ ih => exact ih hm
  | _ => exact hm

end LiveScheme.Machine
