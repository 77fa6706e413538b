import LiveScheme.Proofs.Machine.Invariants
import Mathlib.Data.List.Forall2

/-!
# Machines that differ in some files

Two machines agree off a set of places when they differ at most in the texts of the files there.
Such machines print the same, and the same paths can be followed and appended to; appending to one
of these files, whatever the texts, keeps the agreement.
-/

namespace LiveScheme

namespace Disk

variable {places : Place → Prop}

/-- The same files in the same order, with the same texts outside `places`. -/
abbrev FilesAgree (places : Place → Prop) : List (Place × String) → List (Place × String) → Prop :=
  List.Forall₂ fun file file' => file'.1 = file.1 ∧ (places file.1 ∨ file'.2 = file.2)

theorem FilesAgree.map {files files' : List (Place × String)}
    (h : FilesAgree places files files') : files'.map (·.1) = files.map (·.1) := by
  induction h with
  | nil => rfl
  | cons hfile _ ih => rw [List.map_cons, List.map_cons, hfile.1, ih]

theorem FilesAgree.putIn {files files' : List (Place × String)}
    (h : FilesAgree places files files') {place : Place} (hp : places place)
    (text text' : String) :
    FilesAgree places (Disk.putIn place text files) (Disk.putIn place text' files') := by
  induction h with
  | nil => exact .cons ⟨rfl, .inl hp⟩ .nil
  | cons hfile hrest ih =>
    unfold Disk.putIn
    rw [hfile.1]
    split
    · exact .cons ⟨rfl, .inl hp⟩ hrest
    · exact .cons hfile ih

/-- The text of a file that exists may be replaced. -/
theorem FilesAgree.putIn_self {files : List (Place × String)} {place : Place}
    (hp : places place) (hfile : (files.lookup place).isSome = true) (text : String) :
    FilesAgree places files (Disk.putIn place text files) := by
  induction files with
  | nil => cases hfile
  | cons file rest ih =>
    have hrest : FilesAgree places rest rest := List.forall₂_same.mpr fun _ _ => ⟨rfl, .inr rfl⟩
    unfold Disk.putIn
    split
    · next he => exact .cons ⟨he.symm, .inl (he ▸ hp)⟩ hrest
    · next he =>
      have hne : (place == file.1) = false := by simpa using Ne.symm he
      rw [List.lookup_cons, hne] at hfile
      exact .cons ⟨rfl, .inr rfl⟩ (ih hfile)

theorem FilesAgree.eq {files files' : List (Place × String)}
    (h : FilesAgree (fun _ => False) files files') : files' = files := by
  induction h with
  | nil => rfl
  | cons hfile _ ih => rw [ih, Prod.ext hfile.1 (hfile.2.resolve_left id)]

/-- The same directories, and files that agree. -/
structure AgreesOff (places : Place → Prop) (d d' : Disk) : Prop where
  directories : d'.directories = d.directories
  files : FilesAgree places d.files d'.files

theorem isSome_lookup (files : List (Place × String)) (place : Place) :
    (files.lookup place).isSome = (files.map (·.1)).contains place := by
  induction files with
  | nil => rfl
  | cons entry rest ih =>
    rw [List.lookup_cons, List.map_cons, List.contains_cons, ← ih]
    cases place == entry.1 <;> rfl

namespace AgreesOff

theorem refl (d : Disk) : AgreesOff places d d :=
  ⟨rfl, List.forall₂_same.mpr fun _ _ => ⟨rfl, .inr rfl⟩⟩

theorem isSome_lookup {d d' : Disk} (h : AgreesOff places d d') (place : Place) :
    (d'.files.lookup place).isSome = (d.files.lookup place).isSome := by
  rw [Disk.isSome_lookup, Disk.isSome_lookup, h.files.map]

theorem isDirectory {d d' : Disk} (h : AgreesOff places d d') (place : Place) :
    d'.isDirectory place = d.isDirectory place := by
  have hany : ∀ files : List (Place × String),
      files.any (isBelow place ·.1) = (files.map (·.1)).any (isBelow place) := by
    intro files
    rw [List.any_map]
    rfl
  rw [Disk.isDirectory, Disk.isDirectory, h.directories, hany, hany, h.files.map]

theorem entryAt?_eq_directory {d d' : Disk} (h : AgreesOff places d d') (place : Place) :
    d'.entryAt? place = some .directory ↔ d.entryAt? place = some .directory := by
  have hsome := h.isSome_lookup place
  rw [Disk.entryAt?_eq_directory, Disk.entryAt?_eq_directory, h.isDirectory,
    ← Option.isNone_iff_eq_none, ← Option.isNone_iff_eq_none, ← Option.not_isSome,
    ← Option.not_isSome, hsome]

theorem follow {d d' : Disk} (h : AgreesOff places d d') (place : Place)
    (components : List String) : d'.follow place components = d.follow place components := by
  induction components generalizing place with
  | nil => rfl
  | cons component rest ih =>
    have hsome := h.isSome_lookup place
    unfold Disk.follow entryAt?
    rw [h.isDirectory]
    cases hd : d.files.lookup place with
    | none =>
      rw [hd] at hsome
      rw [Option.isSome_eq_false_iff.mp hsome |> Option.isNone_iff_eq_none.mp]
      cases d.isDirectory place with
      | true => exact ih _
      | false => rfl
    | some text =>
      rw [hd] at hsome
      obtain ⟨text', ht⟩ := Option.isSome_iff_exists.mp hsome
      rw [ht]

theorem locate {d d' : Disk} (h : AgreesOff places d d') (path : String) :
    d'.locate path = d.locate path := by
  unfold Disk.locate
  dsimp only
  rw [h.follow, h.follow]

theorem put {d d' : Disk} (h : AgreesOff places d d') {place : Place} (hp : places place)
    (text text' : String) : AgreesOff places (d.put place text) (d'.put place text') where
  directories := h.directories
  files := h.files.putIn hp text text'

theorem holds {d d' : Disk} (h : AgreesOff places d d') {path : String} (hd : d.Holds path) :
    d'.Holds path where
  noZero := hd.noZero
  noSlash := hd.noSlash
  file := by
    obtain ⟨place, hplace, hfile⟩ := hd.file
    exact ⟨place, by rw [h.locate, hplace], by rw [h.isSome_lookup, hfile]⟩

/-- Different texts may be appended to the files on which the disks need not agree. -/
theorem append {d d' e : Disk} (h : AgreesOff places d d') {path text : String}
    (hd : d.append path text = .ok e) (hp : ∀ place, d.locate path = .ok place → places place)
    (text' : String) : ∃ e', d'.append path text' = .ok e' ∧ AgreesOff places e e' := by
  obtain ⟨hslash, place, hplace, hentry, rfl⟩ := append_eq_ok hd
  have hplace' : d'.locate path = .ok place := by rw [h.locate, hplace]
  have hentry' : d'.entryAt? place ≠ some .directory := by
    rwa [ne_eq, h.entryAt?_eq_directory]
  exact ⟨_, append_of_locate text' hslash hplace' hentry', h.put (hp place hplace) _ _⟩

/-- Appending to a file that exists makes no difference but at its place. -/
theorem append_self {d e : Disk} {path text : String} (hd : d.append path text = .ok e)
    (h : d.Holds path) (hp : ∀ place, d.locate path = .ok place → places place) :
    AgreesOff places d e := by
  obtain ⟨-, place, hplace, -, rfl⟩ := append_eq_ok hd
  obtain ⟨place', hplace', hfile⟩ := h.file
  rw [hplace] at hplace'
  cases hplace'
  exact ⟨rfl, FilesAgree.putIn_self (hp place hplace) hfile _⟩

theorem eq_of_empty {d d' : Disk} (h : AgreesOff (fun _ => False) d d') : d' = d := by
  obtain ⟨files, directories⟩ := d
  obtain ⟨files', directories'⟩ := d'
  have hfiles : files' = files := h.files.eq
  have hdirectories : directories' = directories := h.directories
  rw [hfiles, hdirectories]

end AgreesOff

end Disk

namespace Machine

/-- Machines that differ at most in the texts of the files at the given places. -/
structure AgreesOff (places : Place → Prop) (m m' : Machine) : Prop where
  rest : m' = { m with disk := m'.disk }
  disk : m.disk.AgreesOff places m'.disk

namespace AgreesOff

variable {places : Place → Prop}

theorem refl (m : Machine) : AgreesOff places m m := ⟨rfl, .refl _⟩

theorem write {m m' : Machine} (h : AgreesOff places m m') (v : Value) :
    m'.write v = m.write v := by
  rw [h.rest]
  rfl

theorem connections {m m' : Machine} (h : AgreesOff places m m') :
    m'.connections = m.connections := by
  rw [h.rest]

theorem withDisk {m m' : Machine} (h : AgreesOff places m m') {disk disk' : Disk}
    (hd : disk.AgreesOff places disk') :
    AgreesOff places { m with disk } { m' with disk := disk' } :=
  ⟨by rw [h.rest], hd⟩

/-- Nothing differs when there is no place to differ at. -/
theorem eq_of_empty {m m' : Machine} (h : AgreesOff (fun _ => False) m m') : m' = m := by
  rw [h.rest, h.disk.eq_of_empty]

end AgreesOff

end Machine

end LiveScheme
