import LiveScheme.Proofs.Editor.Exchange
import LiveScheme.Proofs.Editor.Naming

/-!
# Questions to a server

A question of an editor is one request, whose reply is decoded. The request can be written unless
the reader faults on the name of the module in it, and the reader never faults on the request. So
there are three ways for a question to end with neither a result nor an error: the name, a server
that runs on for ever, and a reply that cannot be decoded.
-/

namespace LiveScheme

open Command Dialogue

/-- The reply is decoded or reported, and what it is decoded to can be shown. -/
def Decode.Shows {α : Type} (spoilt : String → Bool) (decode : String → Decoded α)
    (shown : α → Prop) (reply : String) : Prop :=
  spoilt reply = false ∧ ∀ v, decode reply = .ok v → shown v

namespace Session

variable {α : Type} {n : Nat} {t : Transport}

section Question

variable {text? : Except Fault String} {home : Option String} {decode : String → Decoded α}
  {spoilt : String → Bool} {shown : α → Prop}

/-- Sends a request, if it can be written, and decodes the reply. -/
def question (g : Engine) (text? : Except Fault String) (decode : String → Decoded α) :
    Dialogue α := do
  let text ← ofFault text?
  ofDecoded (decode (← request g text))

theorem question_ok {g : Engine} {text : String} (h : text? = .ok text) :
    question g text? decode = request g text >>= fun reply => ofDecoded (decode reply) := by
  rw [h]
  rfl

theorem symbolDocumentation_eq (g : Engine) (name : String) (home : Option String) :
    symbolDocumentation g name home =
      question g (documentationText name home) Decode.symbolDocumentation := by
  have hcommand : ∀ args, command g "symbol-documentation" args none =
      request g (plainText "symbol-documentation" args) := fun args => by
    rw [command, expression_plainText (by decide)]
    rfl
  unfold symbolDocumentation question
  cases home with
  | none =>
    simp only [pure_bind, hcommand]
    rfl
  | some m =>
    simp only [hcommand, documentationText, ofFault_bind, ofFault_pure, bind_assoc, pure_bind]

theorem autodoc_eq (g : Engine) (names : List String) (cursor : Option Cursor) :
    autodoc g names cursor =
      question g (autodocText (names.map fun name => some (quoteText name)) cursor)
        Decode.autodoc := by
  have hexpression : ∀ args : List (Option String),
      expression ⟨"autodoc", args⟩ cursor = autodocText args cursor := fun args => by
    simp [expression]
  simp only [autodoc, command, hexpression, question, bind_assoc]

/-- A question comes to a result that can be shown, or to an error, unless its request cannot be
written, the server runs on, or the reply cannot be shown. -/
theorem question_iff (ht : t.Rests) (herror : (∃ f, text? = .error f) ↔ IsUnreadable home)
    (hread : ∀ text, text? = .ok text → ∀ f, Datum.readAll text ≠ .error (.fault f))
    (hdecode : ∀ reply, (decode reply).FaultsExactly (spoilt reply)) :
    (Concludes (question (Engine.ofAllowance n) text? decode) t ∧
      ∀ v t', question (Engine.ofAllowance n) text? decode t = .ok v t' → shown v) ↔
    ¬ IsUnreadable home ∧ ∀ text, text? = .ok text →
      (∀ t', request (Engine.ofAllowance n) text t ≠ .error .endless t') ∧
      ∀ reply t', request (Engine.ofAllowance n) text t = .ok reply t' →
        Decode.Shows spoilt decode shown reply := by
  rw [← herror]
  cases htext : text? with
  | error f =>
    refine ⟨fun h => ?_, fun h => absurd ⟨f, rfl⟩ h.1⟩
    obtain ⟨e, he⟩ := h.1 (.fault f) t rfl
    cases he
  | ok text =>
    rw [question_ok rfl, concludes_decoded_iff ht (hread text htext) hdecode]
    constructor
    · rintro ⟨⟨hends, hspoilt⟩, hshown⟩
      refine ⟨by simp, ?_⟩
      rintro _ ⟨⟩
      exact ⟨hends, fun reply t' hreply => ⟨hspoilt reply t' hreply, fun v hv =>
        hshown v t' (decoded_ok_iff.mpr ⟨reply, hreply, hv⟩)⟩⟩
    · rintro ⟨-, h⟩
      obtain ⟨hends, hshows⟩ := h text rfl
      refine ⟨⟨hends, fun reply t' hreply => (hshows reply t' hreply).1⟩, fun v t' hv => ?_⟩
      obtain ⟨reply, hreply, hdecoded⟩ := decoded_ok_iff.mp hv
      exact (hshows reply t' hreply).2 v hdecoded

end Question

/-! ### Completions -/

/-- The request for the names that complete a stem. -/
def completionsText (stem : String) : Except Fault String :=
  (Inquiry.completions stem).command.expression none

def moduleCompletionsText (stem : String) : Except Fault String :=
  (Inquiry.moduleCompletions stem).command.expression none

/-- A value that a list of texts, or an error of the protocol, can be decoded from. -/
def IsListing (reply : EvalReply) : Prop :=
  match reply with
  | .error _ => True
  | reply => Decode.isSpoilt (fun _ => false) reply.value = false

/-- What follows the evaluation of a request for completions. -/
def listing (reply : EvalReply) : Dialogue (List String) :=
  match reply with
  | .error _ => return []
  | reply => ofDecoded (Decode.strings reply.value)

theorem concludes_listing_iff {reply : EvalReply} :
    Concludes (listing reply) t ↔ IsListing reply := by
  cases reply with
  | error message => exact ⟨fun _ => trivial, fun _ => .of_returns ⟨[], t, rfl⟩⟩
  | result values output => exact concludes_ofDecoded_iff (Decode.strings_faultsExactly _)

theorem onProtocolError_cases (x : Dialogue α) (k : EditorError → α) (t : Transport) :
    onProtocolError x (fun e => return k e) t = x t ∨ ∃ e t', x t = .error (.error e) t' ∧
      onProtocolError x (fun e => return k e) t = .ok (k e) t' := by
  unfold onProtocolError
  cases x t with
  | ok v t' => exact .inl rfl
  | error stop t' =>
    cases stop with
    | error e =>
      dsimp only
      split
      · exact .inr ⟨e, t', rfl, rfl⟩
      · exact .inl rfl
    | _ => exact .inl rfl

theorem concludes_onProtocolError_iff {x : Dialogue α} {k : EditorError → α} :
    Concludes (onProtocolError x fun e => return k e) t ↔ Concludes x t := by
  obtain h | ⟨e, t', hx, h⟩ := onProtocolError_cases x k t
  · rw [Concludes, h, Concludes]
  · rw [concludes_of_error hx]
    exact ⟨fun _ => ⟨e, rfl⟩, fun _ => .of_returns ⟨k e, t', h⟩⟩

theorem forall_ok_iff {x : Except Fault α} {v : α} (h : x = .ok v) {q : α → Prop} :
    (∀ w, x = .ok w → q w) ↔ q v := by
  rw [h]
  exact ⟨fun hall => hall v rfl, fun hv w hw => (by cases hw; exact hv)⟩

theorem concludes_moduleCompletions_iff (stem : String) (ht : t.Rests) :
    Concludes (moduleCompletions (Engine.ofAllowance n) stem) t ↔
      ∀ text, moduleCompletionsText stem = .ok text →
        (∀ t', request (Engine.ofAllowance n) text t ≠ .error .endless t') ∧
        ∀ reply t', request (Engine.ofAllowance n) text t = .ok reply t' →
          Decode.Shows (Decode.isSpoilt fun _ => false) Decode.strings (fun _ => True) reply := by
  obtain ⟨text, htext, hphrases⟩ := (Inquiry.moduleCompletions stem).phrases
  have hasked : moduleCompletions (Engine.ofAllowance n) stem =
      request (Engine.ofAllowance n) text >>= fun reply => ofDecoded (Decode.strings reply) :=
    Inquiry.sentAs htext (Engine.ofAllowance n)
  rw [hasked, concludes_decoded_iff ht hphrases.readAll_ne_fault Decode.strings_faultsExactly]
  refine Iff.trans ?_ (forall_ok_iff htext).symm
  exact and_congr_right fun _ => forall₃_congr fun reply t' _ =>
    ⟨fun h => ⟨h, fun _ _ => trivial⟩, And.left⟩

theorem concludes_completions_iff {stem : String} (ht : t.Rests) :
    Concludes (completions (Engine.ofAllowance n) stem) t ↔
      ∀ text, completionsText stem = .ok text →
        (∀ t', request (Engine.ofAllowance n) text t ≠ .error .endless t') ∧
        ∀ reply t', request (Engine.ofAllowance n) text t = .ok reply t' →
          Decode.Shows (Decode.isSpoilt Decode.spoiltValues) Decode.evalReply IsListing reply := by
  obtain ⟨text, htext, hphrases⟩ := (Inquiry.completions stem).phrases
  let asked : Dialogue EvalReply :=
    request (Engine.ofAllowance n) text >>= fun reply => ofDecoded (Decode.evalReply reply)
  have hcompletions : completions (Engine.ofAllowance n) stem =
      onProtocolError asked (fun e => return .error e.message) >>= listing :=
    Inquiry.sentAs htext (Engine.ofAllowance n)
  refine Iff.trans ?_ (forall_ok_iff htext).symm
  rw [hcompletions, concludes_bind_iff, concludes_onProtocolError_iff,
    concludes_decoded_iff ht hphrases.readAll_ne_fault Decode.evalReply_faultsExactly, and_assoc]
  refine and_congr_right fun _ => ⟨fun h reply t' hreply => ⟨h.1 reply t' hreply, ?_⟩,
    fun h => ⟨fun reply t' hreply => (h reply t' hreply).1, fun r t' hr => ?_⟩⟩
  · intro v hv
    have hasked : asked t = .ok v t' := decoded_ok_iff.mpr ⟨reply, hreply, hv⟩
    obtain heq | ⟨e, t₁, hstop, -⟩ := onProtocolError_cases asked (fun e => .error e.message) t
    · exact concludes_listing_iff.mp (h.2 v t' (heq.trans hasked))
    · rw [hasked] at hstop
      cases hstop
  · rw [concludes_listing_iff]
    obtain heq | ⟨e, t₁, -, heq⟩ := onProtocolError_cases asked (fun e => .error e.message) t
    · rw [heq] at hr
      obtain ⟨reply, hreply, hdecoded⟩ := decoded_ok_iff.mp hr
      exact (h reply t' hreply).2 r hdecoded
    · rw [heq] at hr
      cases hr
      trivial

end Session

end LiveScheme
