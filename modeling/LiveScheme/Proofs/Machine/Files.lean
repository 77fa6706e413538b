import LiveScheme.Disk

/-!
# Files that can be appended to

Files are made and grow, but nothing is ever removed: what was a directory or a file stays one.
A path that has been appended to once names a file from then on, so it can be appended to again.
Which paths can be followed and appended to depends on what exists, never on the texts of files.
-/

namespace LiveScheme.Disk

theorem lookup_put_self (d : Disk) (place : Place) (text : String) :
    (d.put place text).files.lookup place = some text := by
  unfold put
  dsimp only
  induction d.files with
  | nil => simp [putIn]
  | cons file rest ih =>
    obtain ⟨p, old⟩ := file
    by_cases h : p = place
    · simp [putIn, h]
    · have hne : (place == p) = false := by simpa using Ne.symm h
      simp [putIn, h, List.lookup_cons, hne, ih]

theorem lookup_put_of_ne (d : Disk) {place other : Place} (text : String) (h : other ≠ place) :
    (d.put place text).files.lookup other = d.files.lookup other := by
  have hne : (other == place) = false := by simpa using h
  unfold put
  dsimp only
  induction d.files with
  | nil => simp [putIn, List.lookup_cons, hne]
  | cons file rest ih =>
    obtain ⟨p, old⟩ := file
    by_cases he : p = place
    · simp [putIn, he, List.lookup_cons, hne]
    · simp [putIn, he, List.lookup_cons, ih]

theorem entryAt?_of_lookup {d : Disk} {place : Place} {text : String}
    (h : d.files.lookup place = some text) : d.entryAt? place = some (.file text) := by
  rw [entryAt?, h]

theorem entryAt?_eq_directory {d : Disk} {place : Place} :
    d.entryAt? place = some .directory ↔
      d.files.lookup place = none ∧ d.isDirectory place = true := by
  unfold entryAt?
  cases d.files.lookup place with
  | some text => simp
  | none => cases d.isDirectory place <;> simp

section Growth

/-- Whatever exists on the first disk still exists on the second. -/
structure Grows (d d' : Disk) : Prop where
  file : ∀ place, (d.files.lookup place).isSome = true → (d'.files.lookup place).isSome = true
  directory : ∀ place, d.entryAt? place = some .directory → d'.entryAt? place = some .directory

theorem Grows.refl (d : Disk) : d.Grows d := ⟨fun _ h => h, fun _ h => h⟩

theorem Grows.trans {d d' d'' : Disk} (h : d.Grows d') (h' : d'.Grows d'') : d.Grows d'' :=
  ⟨fun place hp => h'.file place (h.file place hp),
    fun place hp => h'.directory place (h.directory place hp)⟩

theorem any_putIn {p : Place → Bool} {files : List (Place × String)} {place : Place}
    {text : String} (h : files.any (p ·.1) = true) :
    (putIn place text files).any (p ·.1) = true := by
  induction files with
  | nil => cases h
  | cons file rest ih =>
    rw [List.any_cons, Bool.or_eq_true] at h
    by_cases he : file.1 = place
    · rw [putIn, if_pos he, List.any_cons, Bool.or_eq_true]
      exact h.imp_left fun hp => he ▸ hp
    · rw [putIn, if_neg he, List.any_cons, Bool.or_eq_true]
      exact h.imp_right ih

theorem isDirectory_put {d : Disk} {place other : Place} {text : String}
    (h : d.isDirectory other = true) : (d.put place text).isDirectory other = true := by
  unfold isDirectory at h ⊢
  rw [Bool.or_eq_true] at h ⊢
  exact h.imp_right any_putIn

/-- A text can be put anywhere but at a directory. -/
theorem grows_put {d : Disk} {place : Place} (text : String)
    (h : d.entryAt? place ≠ some .directory) : d.Grows (d.put place text) where
  file other ho := by
    by_cases he : other = place
    · rw [he, lookup_put_self]
      rfl
    · rwa [lookup_put_of_ne d text he]
  directory other ho := by
    have hne : other ≠ place := by
      rintro rfl
      exact h ho
    rw [entryAt?_eq_directory] at ho ⊢
    exact ⟨by rw [lookup_put_of_ne d text hne, ho.1], isDirectory_put ho.2⟩

theorem Grows.follow {d d' : Disk} (h : d.Grows d') {components : List String}
    {place target : Place} (hf : d.follow place components = .ok target) :
    d'.follow place components = .ok target := by
  induction components generalizing place with
  | nil => exact hf
  | cons component rest ih =>
    unfold Disk.follow at hf ⊢
    cases hentry : d.entryAt? place with
    | none => rw [hentry] at hf; cases hf
    | some entry =>
      rw [hentry] at hf
      cases entry with
      | file text => cases hf
      | directory =>
        rw [h.directory place hentry]
        exact ih hf

theorem Grows.locate {d d' : Disk} (h : d.Grows d') {path : String} {place : Place}
    (hl : d.locate path = .ok place) : d'.locate path = .ok place := by
  unfold Disk.locate at hl ⊢
  dsimp only at hl ⊢
  split at hl
  · cases hl
  · next hne =>
    rw [if_neg hne]
    split at hl
    · next hroot => rw [if_pos hroot]; exact h.follow hl
    · next hroot => rw [if_neg hroot]; exact h.follow hl

end Growth

section Appending

theorem append_of_slash {path : String} (d : Disk) (more : String)
    (h : path.endsWith "/" = true) : ∃ problem, d.append path more = .error problem := by
  unfold append
  rw [if_pos h]
  dsimp only
  split
  · cases d.locate (dropFinalSlashes path) <;> exact ⟨_, rfl⟩
  · exact ⟨_, rfl⟩

theorem append_of_notFound {d : Disk} {path : String} {problem : FileProblem} (more : String)
    (h : path.endsWith "/" = false) (hl : d.locate path = .error problem) :
    d.append path more = .error problem := by
  unfold append
  rw [h, hl]
  rfl

theorem append_of_found {d : Disk} {path : String} {place : Place} (more : String)
    (h : path.endsWith "/" = false) (hl : d.locate path = .ok place) :
    d.append path more = (match d.entryAt? place with
      | some (.file text) => pure (d.put place (text ++ more))
      | some .directory => throw .isDirectory
      | none => pure (d.put place more)) := by
  unfold append
  rw [h, hl]
  rfl

theorem append_of_locate {d : Disk} {path : String} {place : Place} (more : String)
    (h : path.endsWith "/" = false) (hl : d.locate path = .ok place)
    (hentry : d.entryAt? place ≠ some .directory) :
    d.append path more = .ok (d.put place ((d.files.lookup place).getD "" ++ more)) := by
  rw [append_of_found more h hl]
  unfold entryAt? at hentry ⊢
  cases hfile : d.files.lookup place with
  | some text => rfl
  | none =>
    cases hdir : d.isDirectory place with
    | true => simp [hfile, hdir] at hentry
    | false => simp [pure, Except.pure]

/-- What appending to a path does. -/
theorem append_eq_ok {d d' : Disk} {path more : String} (h : d.append path more = .ok d') :
    path.endsWith "/" = false ∧ ∃ place, d.locate path = .ok place ∧
      d.entryAt? place ≠ some .directory ∧
      d' = d.put place ((d.files.lookup place).getD "" ++ more) := by
  cases hslash : path.endsWith "/" with
  | true =>
    obtain ⟨problem, hproblem⟩ := append_of_slash d more hslash
    rw [hproblem] at h
    cases h
  | false =>
    refine ⟨rfl, ?_⟩
    cases hl : d.locate path with
    | error problem =>
      rw [append_of_notFound more hslash hl] at h
      cases h
    | ok place =>
      have hentry : d.entryAt? place ≠ some .directory := by
        intro hdir
        rw [append_of_found more hslash hl, hdir] at h
        cases h
      rw [append_of_locate more hslash hl hentry] at h
      cases h
      exact ⟨place, rfl, hentry, rfl⟩

theorem grows_append {d d' : Disk} {path more : String} (h : d.append path more = .ok d') :
    d.Grows d' := by
  obtain ⟨-, place, -, hentry, rfl⟩ := append_eq_ok h
  exact grows_put _ hentry

/-- The path names a file to which a text can be added. -/
structure Holds (d : Disk) (path : String) : Prop where
  noZero : path.toList.contains '\x00' = false
  noSlash : path.endsWith "/" = false
  file : ∃ place, d.locate path = .ok place ∧ (d.files.lookup place).isSome = true

theorem Holds.mono {d d' : Disk} {path : String} (hd : d.Grows d') (h : d.Holds path) :
    d'.Holds path := by
  obtain ⟨place, hplace, hfile⟩ := h.file
  exact ⟨h.noZero, h.noSlash, place, hd.locate hplace, hd.file place hfile⟩

theorem holds_of_append {d d' : Disk} {path more : String}
    (hz : path.toList.contains '\x00' = false) (h : d.append path more = .ok d') :
    d'.Holds path := by
  have hd := grows_append h
  obtain ⟨hslash, place, hplace, -, rfl⟩ := append_eq_ok h
  refine ⟨hz, hslash, place, hd.locate hplace, ?_⟩
  rw [lookup_put_self]
  rfl

theorem Holds.append {d : Disk} {path : String} (h : d.Holds path) (more : String) :
    ∃ d', d.append path more = .ok d' := by
  obtain ⟨place, hplace, hfile⟩ := h.file
  obtain ⟨text, htext⟩ := Option.isSome_iff_exists.mp hfile
  refine ⟨_, append_of_locate more h.noSlash hplace ?_⟩
  rw [entryAt?_of_lookup htext]
  intro h
  cases h

end Appending

end LiveScheme.Disk
