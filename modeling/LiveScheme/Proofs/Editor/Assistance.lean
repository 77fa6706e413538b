import LiveScheme.Proofs.Buffer.Word
import LiveScheme.Proofs.Editor.Question
import LiveScheme.Proofs.Editor.Standing

/-!
# Questions about a place

A question about a place in a document is answered from the text around the place and by the server.
Errors between the session and its server leave it without an answer, so it returns but for a few
causes: a column behind the end of its line where the word is asked for, the name of a module that
the reader faults on, a server that runs on for ever, and a reply that cannot be decoded.
-/

namespace LiveScheme

open Command Dialogue

namespace Assistant

variable {α β : Type} {g : Engine} {n : Nat} {a : Assistant} {t : Transport}

theorem concludes_onTransport_iff {x : Dialogue α} :
    Concludes (onTransport t x) a ↔ Concludes x t := by
  cases hx : x t with
  | ok v t' =>
    have heq : onTransport t x a = .ok v { a with session := some t' } := by
      rw [onTransport, hx]
    exact ⟨fun _ => .of_returns ⟨v, t', hx⟩, fun _ => .of_returns ⟨v, _, heq⟩⟩
  | error stop t' =>
    have heq : onTransport t x a = .error stop { a with session := some t' } := by
      rw [onTransport, hx]
    rw [concludes_of_error hx, concludes_of_error heq]

theorem concludes_converse_iff {x : Dialogue α} : Concludes (converse g x) a ↔
    Concludes (contact g) a ∧ ∀ t a', contact g a = .ok t a' → Concludes x t := by
  rw [converse_eq, concludes_bind_iff]
  exact and_congr_right fun _ => forall₃_congr fun _ _ _ => concludes_onTransport_iff

section Otherwise

variable {x : Assisting α} {v : α} {f : α → Assisting β} {q : α → Prop}

theorem onError_cases (x : Assisting α) (v : α) (a : Assistant) :
    (onError x fun _ => return v) a = x a ∨ ∃ e a', x a = .error (.error e) a' ∧
      (onError x fun _ => return v) a = .ok v a' := by
  unfold onError
  cases x a with
  | ok w a' => exact .inl rfl
  | error stop a' =>
    cases stop with
    | error e => exact .inr ⟨e, a', rfl, rfl⟩
    | _ => exact .inl rfl

/-- An action with a result to fall back to returns if it concludes, and what follows returns if its
result can be shown. -/
theorem returns_onError_bind_iff (hf : ∀ w a, Returns (f w) a ↔ q w) (hv : q v) :
    Returns ((onError x fun _ => return v) >>= f) a ↔
      Concludes x a ∧ ∀ w a', x a = .ok w a' → q w := by
  rw [returns_bind_iff]
  simp only [hf]
  obtain h | ⟨e, a', hx, h⟩ := onError_cases x v a
  · rw [h]
    cases hx : x a with
    | ok w a' =>
      constructor
      · rintro ⟨_, _, ⟨⟩, hw⟩
        refine ⟨.of_returns ⟨w, a', hx⟩, ?_⟩
        rintro _ _ ⟨⟩
        exact hw
      · rintro ⟨-, hq⟩
        exact ⟨w, a', rfl, hq w a' rfl⟩
    | error stop a' =>
      rw [concludes_of_error hx]
      constructor
      · rintro ⟨_, _, hok, -⟩
        cases hok
      · rintro ⟨⟨e, rfl⟩, -⟩
        rw [onError, hx] at h
        cases h
  · rw [h, concludes_of_error hx, hx]
    exact iff_of_true ⟨v, a', rfl, hv⟩ ⟨⟨e, rfl⟩, fun w a' hw => by cases hw⟩

theorem returns_onError_iff : Returns (onError x fun _ => return v) a ↔ Concludes x a := by
  have hpure : ∀ (w : α) a, Returns (pure w : Assisting α) a ↔ True := fun w a =>
    ⟨fun _ => trivial, fun _ => ⟨w, a, rfl⟩⟩
  have h := returns_onError_bind_iff (a := a) (x := x) (v := v) hpure trivial
  rw [bind_pure] at h
  simpa using h

end Otherwise

/-- The server can be asked: a session can be begun if there is none, the reader does not fault on
the name of the module, the server comes to an end with the request, and its reply can be shown. -/
structure Answers (g : Engine) (a : Assistant) (home : Option String)
    (text? : Except Fault String) (shown : String → Prop) : Prop where
  begins : Concludes (contact g) a
  readable : ∀ t a', contact g a = .ok t a' → ¬ IsUnreadable home
  ends : ∀ t a', contact g a = .ok t a' → ∀ text, text? = .ok text →
    ∀ t', request g text t ≠ .error .endless t'
  shows : ∀ t a', contact g a = .ok t a' → ∀ text, text? = .ok text →
    ∀ reply t', request g text t = .ok reply t' → shown reply

section Question

variable {home : Option String} {text? : Except Fault String} {decode : String → Decoded α}
  {spoilt : String → Bool} {q : α → Prop} {v : α} {f : α → Assisting β}

theorem answers_iff {shown : String → Prop} : Answers g a home text? shown ↔
    Concludes (contact g) a ∧ ∀ t a', contact g a = .ok t a' → ¬ IsUnreadable home ∧
      ∀ text, text? = .ok text → (∀ t', request g text t ≠ .error .endless t') ∧
        ∀ reply t', request g text t = .ok reply t' → shown reply :=
  ⟨fun h => ⟨h.begins, fun t a' ht => ⟨h.readable t a' ht, fun text htext =>
      ⟨h.ends t a' ht text htext, h.shows t a' ht text htext⟩⟩⟩,
    fun h => ⟨h.1, fun t a' ht => (h.2 t a' ht).1,
      fun t a' ht text htext => ((h.2 t a' ht).2 text htext).1,
      fun t a' ht text htext => ((h.2 t a' ht).2 text htext).2⟩⟩

/-- A question returns exactly when the server can be asked. -/
theorem returns_question_iff (ha : a.Rests)
    (herror : (∃ f, text? = .error f) ↔ IsUnreadable home)
    (hread : ∀ text, text? = .ok text → ∀ f, Datum.readAll text ≠ .error (.fault f))
    (hdecode : ∀ reply, (decode reply).FaultsExactly (spoilt reply))
    (hf : ∀ w a, Returns (f w) a ↔ q w) (hv : q v) :
    Returns ((onError (converse (Engine.ofAllowance n)
        (Session.question (Engine.ofAllowance n) text? decode)) fun _ => return v) >>= f) a ↔
      Answers (Engine.ofAllowance n) a home text? (Decode.Shows spoilt decode q) := by
  rw [returns_onError_bind_iff hf hv, concludes_converse_iff, answers_iff, and_assoc]
  refine and_congr_right fun _ => ?_
  have hrests := (contact_rests n ha).2
  constructor
  · rintro ⟨hconcludes, hshown⟩ t a' ht
    refine (Session.question_iff (hrests t a' ht) herror hread hdecode).mp
      ⟨hconcludes t a' ht, fun w t' hw => hshown w { a' with session := some t' } ?_⟩
    rw [converse_eq]
    refine (bind_of_ok ht).trans ?_
    rw [onTransport, hw]
  · intro h
    have hquestion := fun t a' ht =>
      (Session.question_iff (hrests t a' ht) herror hread hdecode).mpr (h t a' ht)
    refine ⟨fun t a' ht => (hquestion t a' ht).1, fun w a' hw => ?_⟩
    rw [converse_eq] at hw
    obtain ⟨t, a₁, ht, hdialogue⟩ := exists_of_bind_ok hw
    obtain ⟨t', hx⟩ := exists_of_onTransport_ok hdialogue
    exact (hquestion t a₁ ht).2 w t' hx

end Question

/-! ### The questions of an editor -/

/-- The documentation of a name has a text. -/
def IsDescribable (doc : Option SymbolDoc) : Prop := ∀ d ∈ doc, ∃ text, describe d = .ok text

/-- The first of the entries, if there is one, has a call pattern or needs none. -/
def IsHelpful (entries : List AutodocEntry) : Prop :=
  ∀ e ∈ entries.head?, ∃ help, callHelp e = .ok help

theorem returns_pure (v : α) (a : Assistant) : Returns (pure v : Assisting α) a := ⟨v, a, rfl⟩

theorem returns_ofFault_iff {x : Except Fault α} : Returns (ofFault x) a ↔ ∃ v, x = .ok v := by
  cases x with
  | ok v => exact iff_of_true ⟨v, a, rfl⟩ ⟨v, rfl⟩
  | error f =>
    constructor
    · rintro ⟨_, _, h⟩
      cases h
    · rintro ⟨_, h⟩
      cases h

theorem returns_bind_pure_iff {x : Assisting α} {k : α → β} :
    Returns (x >>= fun v => return k v) a ↔ Returns x a := by
  rw [returns_bind_iff]
  constructor
  · rintro ⟨v, a', h, -⟩
    exact ⟨v, a', h⟩
  · rintro ⟨v, a', h⟩
    exact ⟨v, a', h, returns_pure _ _⟩

theorem concludes_bind_pure_iff {x : Assisting α} {k : α → β} :
    Concludes (x >>= fun v => return k v) a ↔ Concludes x a := by
  rw [concludes_bind_iff]
  exact ⟨And.left, fun h => ⟨h, fun v a' _ => .of_returns (returns_pure _ _)⟩⟩

variable {uri : String} {p : Buffer.Position}

section Place

variable (g : Engine) (a : Assistant) (d : Document) (p : Buffer.Position)

/-- The module around a place in a document. -/
def homeAt : Option String := (Buffer.moduleAt d.chars (d.offset p)).map String.ofList

/-- The place is not behind the end of its line and, if there is a word, the server can be asked for
its documentation. -/
def CanHover : Prop :=
  (∀ line, Buffer.lineAt? d.chars p.line = some line → p.column ≤ line.length) ∧
  ∀ word start, Buffer.wordAt d.chars p = .ok (some word, start) →
    Answers g a (homeAt d p) (documentationText (String.ofList word) (homeAt d p))
      (Decode.Shows (Decode.isSpoilt Decode.spoiltDocumentation) Decode.symbolDocumentation
        IsDescribable)

/-- The server can be asked for the modules or the names that complete the text before the place. -/
def CanComplete : Prop :=
  match Buffer.moduleStem? (d.before p) with
  | some stem => Answers g a none (Session.moduleCompletionsText (String.ofList stem))
    (Decode.Shows (Decode.isSpoilt fun _ => false) Decode.strings fun _ => True)
  | none => Answers g a none
    (Session.completionsText (String.ofList (Buffer.currentWord (d.before p))))
    (Decode.Shows (Decode.isSpoilt Decode.spoiltValues) Decode.evalReply Session.IsListing)

/-- If a call encloses the place, the server can be asked about its procedure. -/
def CanHelp : Prop :=
  ∀ callee, Buffer.callee? (d.before p) = some callee →
    Answers g a (homeAt d p)
      (autodocText [some (quoteText (String.ofList callee))] (some ⟨d.text, some (d.offset p)⟩))
      (Decode.Shows (Decode.isSpoilt Decode.spoiltAutodoc) Decode.autodoc IsHelpful)

end Place

theorem returns_document_iff {f : Option Document → Assisting β} :
    Returns (document? uri >>= f) a ↔ Returns (f (a.documents.lookup uri)) a := Iff.rfl

theorem hover_returns_iff (ha : a.Rests) : Returns (hover (Engine.ofAllowance n) uri p) a ↔
    ∀ d, a.documents.lookup uri = some d → CanHover (Engine.ofAllowance n) a d p := by
  unfold hover
  rw [returns_document_iff]
  cases a.documents.lookup uri with
  | none => exact iff_of_true (returns_pure none a) fun _ h => by cases h
  | some d =>
    simp only [Option.some.injEq, forall_eq']
    rw [CanHover, ← Buffer.wordAt_ok_iff]
    cases hword : Buffer.wordAt d.chars p with
    | error f =>
      constructor
      · rintro ⟨_, _, h⟩
        cases h
      · rintro ⟨⟨_, h⟩, -⟩
        cases h
    | ok found =>
      obtain ⟨word?, start⟩ := found
      cases word? with
      | none => exact iff_of_true (returns_pure none a) ⟨⟨_, rfl⟩, fun _ _ h => by cases h⟩
      | some word =>
        change Returns (onError (converse _ (Session.symbolDocumentation _ (String.ofList word)
          (homeAt d p))) (fun _ => return none) >>= _) a ↔ _
        rw [Session.symbolDocumentation_eq]
        refine (returns_question_iff (q := IsDescribable) ha (documentationText_error_iff _ _)
          (fun text htext => (isCalm_documentationText htext).readAll_ne_fault)
          Decode.symbolDocumentation_faultsExactly (fun doc a => ?_) fun _ h => by cases h).trans ?_
        · cases doc with
          | none => exact iff_of_true (returns_pure none a) fun _ h => by cases h
          | some doc =>
            refine returns_bind_pure_iff.trans (returns_ofFault_iff.trans ?_)
            simp [IsDescribable]
        · refine ⟨fun h => ⟨⟨_, rfl⟩, ?_⟩, fun h => h.2 word start rfl⟩
          rintro _ _ ⟨⟩
          exact h

/-- A dialogue that needs no module concludes exactly when the server can be asked. -/
theorem concludes_iff_answers {x : Dialogue α} {text? : Except Fault String}
    {shown : String → Prop} (ha : a.Rests) (hx : ∀ t : Transport, t.Rests → (Concludes x t ↔
      ∀ text, text? = .ok text →
        (∀ t', request (Engine.ofAllowance n) text t ≠ .error .endless t') ∧
        ∀ reply t', request (Engine.ofAllowance n) text t = .ok reply t' → shown reply)) :
    Concludes (converse (Engine.ofAllowance n) x) a ↔
      Answers (Engine.ofAllowance n) a none text? shown := by
  rw [concludes_converse_iff, answers_iff]
  refine and_congr_right fun _ => forall₃_congr fun t a' ht => ?_
  rw [hx t ((contact_rests n ha).2 t a' ht)]
  exact ⟨fun h => ⟨not_isUnreadable_none, h⟩, And.right⟩

theorem completion_returns_iff (ha : a.Rests) :
    Returns (completion (Engine.ofAllowance n) uri p) a ↔
      ∀ d, a.documents.lookup uri = some d → CanComplete (Engine.ofAllowance n) a d p := by
  unfold completion
  rw [returns_document_iff]
  cases a.documents.lookup uri with
  | none => exact iff_of_true (returns_pure [] a) fun _ h => by cases h
  | some d =>
    simp only [Option.some.injEq, forall_eq']
    unfold CanComplete
    cases Buffer.moduleStem? (d.before p) with
    | some stem =>
      dsimp only [moduleItems]
      rw [returns_onError_iff, concludes_bind_pure_iff]
      exact concludes_iff_answers ha fun t ht =>
        Session.concludes_moduleCompletions_iff (String.ofList stem) ht
    | none =>
      dsimp only [nameItems]
      rw [returns_bind_pure_iff, returns_onError_iff, concludes_bind_pure_iff]
      exact concludes_iff_answers ha fun t ht => Session.concludes_completions_iff ht

theorem signatureHelp_returns_iff (ha : a.Rests) :
    Returns (signatureHelp (Engine.ofAllowance n) uri p) a ↔
      ∀ d, a.documents.lookup uri = some d → CanHelp (Engine.ofAllowance n) a d p := by
  unfold signatureHelp
  rw [returns_document_iff]
  cases a.documents.lookup uri with
  | none => exact iff_of_true (returns_pure none a) fun _ h => by cases h
  | some d =>
    simp only [Option.some.injEq, forall_eq']
    unfold CanHelp
    cases Buffer.callee? (d.before p) with
    | none => exact iff_of_true (returns_pure none a) fun _ h => by cases h
    | some callee =>
      simp only [Option.some.injEq, forall_eq']
      change Returns (onError (converse _ (Session.autodoc _ [String.ofList callee]
        (some ⟨d.text, some (d.offset p)⟩))) (fun _ => return []) >>= _) a ↔ _
      rw [Session.autodoc_eq]
      refine returns_question_iff (q := IsHelpful) ha (autodocText_error_iff _ _)
        (fun text htext => (isCalm_autodocText htext).readAll_ne_fault)
        Decode.autodoc_faultsExactly (fun entries a => ?_) fun _ h => by cases h
      cases entries with
      | nil => exact iff_of_true (returns_pure none a) fun _ h => by cases h
      | cons e rest =>
        refine returns_ofFault_iff.trans ?_
        simp [IsHelpful]

end Assistant

end LiveScheme
