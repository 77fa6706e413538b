import LiveScheme.Proofs.Editor.Quotation
import LiveScheme.Proofs.Reading.Calm

/-!
# Requests that name a module

The name of the module around a cursor is read from the text of the document and written into the
request. What was read can be written so that it reads as something else, or leaves the request
incomplete, but never so that the reader faults on the request. It only faults on the name itself,
before there is a request.
-/

namespace LiveScheme

theorem Spells.isHarmless {w : List Char} {d : Datum} (h : Spells w d) : Lexed.IsHarmless w := by
  obtain ⟨ts, hw, hd⟩ := h
  exact .of_yields hw hd.isSound

namespace Command

open Lexed

theorem Phrases.readAll_ne_fault {text : String} {d : Datum} (h : Phrases text d) (f : Fault) :
    Datum.readAll text ≠ .error (.fault f) := fun hf => by
  rw [h.readAll] at hf
  cases hf

/-- A name cannot be put into a request exactly where the reader faults on it. -/
theorem moduleText_fault_iff {name : String} {f : Fault} :
    moduleText (some name) = .error f ↔ Datum.readOne name = .error (.fault f) := by
  unfold moduleText
  dsimp only
  by_cases hempty : name.isEmpty = true
  · rw [if_pos hempty, String.isEmpty_iff.mp hempty]
    have hnothing : Datum.readOne "" = .error (.incomplete .nothingRead) := by cbv
    rw [hnothing]
    exact ⟨fun h => (by cases h), fun h => (by cases h)⟩
  rw [if_neg hempty]
  cases Datum.readOne name with
  | ok d => cases d <;> exact ⟨fun h => (by cases h), fun h => (by cases h)⟩
  | error e =>
    cases e with
    | fault g => exact ⟨fun h => (by cases h; rfl), fun h => (by cases h; rfl)⟩
    | _ => exact ⟨fun h => (by cases h), fun h => (by cases h)⟩

theorem isHarmless_quoteText (text : String) : IsHarmless (quoteText text).toList :=
  (spells_quoteText text).isHarmless

theorem isHarmless_moduleText {home : Option String} {text : String}
    (h : moduleText home = .ok text) : IsHarmless text.toList := by
  have hfalse : IsHarmless "#f".toList :=
    (Spells.of_readable (.bool false trivial)).isHarmless
  cases home with
  | none => cases h; exact hfalse
  | some name =>
    unfold moduleText at h
    dsimp only at h
    split at h
    · cases h; exact hfalse
    cases hread : Datum.readOne name with
    | ok d =>
      have hquoted : IsHarmless ("'" ++ d.write).toList := by
        have hquote := (isHarmless_chars (Datum.over_isRead_of_readOne hread)).quote
        simpa [Datum.write] using hquote
      rw [hread] at h
      cases d with
      | sym | list | vector => cases h; exact hquoted
      | object kind => exact kind.elim
      | _ => cases h; exact isHarmless_quoteText name
    | error e =>
      rw [hread] at h
      cases e with
      | fault f => cases h
      | _ => cases h; exact isHarmless_quoteText name

theorem isCalm_plainText {verb : String} (hverb : verb ∈ askedServices) (args : List String)
    (h : ∀ arg ∈ args, IsHarmless arg.toList) : IsCalm (plainText verb (args.map some)).toList := by
  have hhead : IsHarmless ("geiser:" ++ verb).toList :=
    (phrases_sym (readableName_service verb hverb)).spells.isHarmless
  have htext : (plainText verb (args.map some)).toList =
      '(' :: [' '].intercalate ((("geiser:" ++ verb) :: args).map String.toList) ++ [')'] := by
    simp [plainText_eq, String.toList_intercalate]
  rw [htext]
  exact (IsHarmless.intercalate
    (List.forall_mem_map.mpr (List.forall_mem_cons.mpr ⟨hhead, h⟩))).isCalm_list

/-- The request for the documentation of a name in a module, or in the current one. -/
def documentationText (name : String) : Option String → Except Fault String
  | none => .ok (plainText "symbol-documentation" [some (quoteText name)])
  | some home => do
    return plainText "symbol-documentation"
      [some (quoteText name), some (← moduleText (some home))]

/-- The module that a request about names is for, as an expression. -/
def targetText (home : Option String) : Except Fault String :=
  match home with
  | some name => moduleText (some name)
  | none => .ok "(current-module)"

/-- Whether the reader faults on the name of a module, if there is one. -/
def IsUnreadable (home : Option String) : Prop :=
  ∃ name ∈ home, ∃ f, Datum.readOne name = .error (.fault f)

theorem not_isUnreadable_none : ¬ IsUnreadable none := by
  rintro ⟨_, h, -⟩
  cases h

/-- What can be written is not faulted on. -/
theorem error_iff_of_ok {α β : Type} {x : Except Fault α} {k : α → Except Fault β}
    (hk : ∀ v, ∃ w, k v = .ok w) : (∃ f, x >>= k = .error f) ↔ ∃ f, x = .error f := by
  cases x with
  | error f => exact ⟨fun _ => ⟨f, rfl⟩, fun _ => ⟨f, rfl⟩⟩
  | ok v =>
    obtain ⟨w, hw⟩ := hk v
    change (∃ f, k v = .error f) ↔ _
    rw [hw]
    simp

theorem isUnreadable_some_iff {name : String} :
    IsUnreadable (some name) ↔ ∃ f, moduleText (some name) = .error f := by
  simp [IsUnreadable, moduleText_fault_iff]

section Request

variable {name text : String} {names : List String} {home : Option String} {cursor : Option Cursor}

variable (name home) in
theorem documentationText_error_iff :
    (∃ f, documentationText name home = .error f) ↔ IsUnreadable home := by
  cases home with
  | none => simp [documentationText, not_isUnreadable_none]
  | some m =>
    rw [isUnreadable_some_iff, documentationText]
    exact error_iff_of_ok fun target => ⟨_, rfl⟩

theorem isCalm_documentationText (h : documentationText name home = .ok text) :
    IsCalm text.toList := by
  have hverb : "symbol-documentation" ∈ askedServices := by decide
  have hquote := isHarmless_quoteText name
  cases home with
  | none =>
    cases h
    exact isCalm_plainText hverb [quoteText name] (List.forall_mem_singleton.mpr hquote)
  | some m =>
    rw [documentationText] at h
    cases hm : moduleText (some m) with
    | error f => rw [hm] at h; cases h
    | ok moduleName =>
      rw [hm] at h
      cases h
      exact isCalm_plainText hverb [quoteText name, moduleName] (List.forall_mem_cons.mpr
        ⟨hquote, List.forall_mem_singleton.mpr (isHarmless_moduleText hm)⟩)

/-- A request about names is a call of the service on their list and on the module. -/
theorem autodocText_eq (names : List String) (cursor : Option Cursor) :
    autodocText (names.map fun name => some (quoteText name)) cursor =
      targetText (cursor.bind Cursor.module?) >>= fun target => .ok (plainText "autodoc"
        (["'(" ++ " ".intercalate (names.map quoteText) ++ ")", target].map some)) := by
  have htext : ∀ target : String,
      "(geiser:autodoc '(" ++ " ".intercalate (names.map quoteText) ++ ") " ++ target ++ ")" =
        plainText "autodoc"
          (["'(" ++ " ".intercalate (names.map quoteText) ++ ")", target].map some) :=
    fun target => String.toList_inj.mp (by simp [plainText, String.toList_intercalate])
  rw [autodocText, filter_quoteText]
  unfold targetText
  cases cursor.bind Cursor.module? with
  | none => exact congrArg Except.ok (htext _)
  | some m =>
    dsimp only
    cases moduleText (some m) with
    | ok target => exact congrArg Except.ok (htext target)
    | error f => rfl

variable (names cursor) in
theorem autodocText_error_iff :
    (∃ f, autodocText (names.map fun name => some (quoteText name)) cursor = .error f) ↔
      IsUnreadable (cursor.bind Cursor.module?) := by
  rw [autodocText_eq, error_iff_of_ok fun target => ⟨_, rfl⟩]
  cases cursor.bind Cursor.module? with
  | none => simp [targetText, not_isUnreadable_none]
  | some m => rw [isUnreadable_some_iff, targetText]

theorem isHarmless_targetText {target : String} (h : targetText home = .ok target) :
    IsHarmless target.toList := by
  cases home with
  | some m =>
    rw [targetText] at h
    exact isHarmless_moduleText h
  | none =>
    cases h
    have hhome : Phrases "(current-module)" (.list [.sym "current-module"]) :=
      Phrases.list [("current-module", .sym "current-module")]
        (List.forall_mem_singleton.mpr (phrases_sym (readableName_call (by simp))))
    exact hhome.spells.isHarmless

theorem isCalm_autodocText
    (h : autodocText (names.map fun name => some (quoteText name)) cursor = .ok text) :
    IsCalm text.toList := by
  have hnames : IsHarmless ("'(" ++ " ".intercalate (names.map quoteText) ++ ")").toList := by
    have hquoted : IsHarmless ([' '].intercalate ((names.map quoteText).map String.toList)) :=
      .intercalate (List.forall_mem_map.mpr
        (List.forall_mem_map.mpr fun name _ => isHarmless_quoteText name))
    simpa [String.toList_intercalate] using hquoted.list.quote
  rw [autodocText_eq] at h
  cases htarget : targetText (cursor.bind Cursor.module?) with
  | error f => rw [htarget] at h; cases h
  | ok target =>
    rw [htarget] at h
    cases h
    exact isCalm_plainText (by decide) [_, target] (List.forall_mem_cons.mpr
      ⟨hnames, List.forall_mem_singleton.mpr (isHarmless_targetText htarget)⟩)

end Request

end Command

end LiveScheme
