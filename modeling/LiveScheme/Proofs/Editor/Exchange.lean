import LiveScheme.Proofs.Editor.Loopback
import LiveScheme.Proofs.Editor.Malformed
import LiveScheme.Proofs.Repl.Guard

/-!
# Exchanges with a server of the same process

A session reads every request before it sends it, and does not send what the reader cannot finish or
faults on. So its server answers, exits or runs on for ever, and whichever it does, nothing is
pending there when the session is asked again. Of the ends of an exchange that are no errors between
the session and its server, only two remain: a server that runs on, and a reply that cannot be
decoded.
-/

namespace LiveScheme

section Conclusion

variable {σ α β : Type} {x : EStateM EditorStop σ α} {f : α → EStateM EditorStop σ β} {s : σ}

/-- Ends with a result. -/
def Returns (x : EStateM EditorStop σ α) (s : σ) : Prop := ∃ a s', x s = .ok a s'

/-- Ends with a result or with an error between a session and its server. -/
def Concludes (x : EStateM EditorStop σ α) (s : σ) : Prop :=
  ∀ stop s', x s = .error stop s' → ∃ e, stop = .error e

/-- The state that is left, by whatever outcome. -/
def leaves (x : EStateM EditorStop σ α) (s : σ) : σ :=
  match x s with
  | .ok _ s' | .error _ s' => s'

theorem leaves_of_ok {a : α} {s' : σ} (h : x s = .ok a s') : leaves x s = s' := by
  rw [leaves, h]

theorem leaves_of_error {stop : EditorStop} {s' : σ} (h : x s = .error stop s') :
    leaves x s = s' := by
  rw [leaves, h]

theorem Concludes.of_returns (h : Returns x s) : Concludes x s := by
  obtain ⟨a, s', h⟩ := h
  intro stop t ht
  rw [h] at ht
  cases ht

theorem returns_bind_iff :
    Returns (x >>= f) s ↔ ∃ a s', x s = .ok a s' ∧ Returns (f a) s' := by
  constructor
  · rintro ⟨b, s', h⟩
    obtain ⟨a, t, hx, hf⟩ := exists_of_bind_ok h
    exact ⟨a, t, hx, b, s', hf⟩
  · rintro ⟨a, t, hx, b, s', hf⟩
    exact ⟨b, s', (bind_of_ok hx).trans hf⟩

theorem concludes_of_error {stop : EditorStop} {s' : σ} (h : x s = .error stop s') :
    Concludes x s ↔ ∃ e, stop = .error e := by
  refine ⟨fun hx => hx stop s' h, fun hstop stop' t ht => ?_⟩
  rw [h] at ht
  cases ht
  exact hstop

theorem concludes_bind_iff : Concludes (x >>= f) s ↔
    Concludes x s ∧ ∀ a s', x s = .ok a s' → Concludes (f a) s' := by
  cases hx : x s with
  | ok a t =>
    have hbind : (x >>= f) s = f a t := bind_of_ok hx
    have hsame : Concludes (x >>= f) s ↔ Concludes (f a) t := by rw [Concludes, hbind, Concludes]
    rw [hsame]
    refine ⟨fun h => ⟨.of_returns ⟨a, t, hx⟩, ?_⟩, fun h => h.2 a t rfl⟩
    rintro _ _ ⟨⟩
    exact h
  | error stop t =>
    rw [concludes_of_error hx, concludes_of_error (bind_of_error hx)]
    exact ⟨fun h => ⟨h, fun a s' ha => by cases ha⟩, And.left⟩

end Conclusion

section Keeping

variable {σ α β : Type} {I : σ → Prop}

/-- Leaves a state with the property where it finds one, by whatever outcome. -/
def Keeps (I : σ → Prop) (x : EStateM EditorStop σ α) : Prop := ∀ s, I s → I (leaves x s)

namespace Keeps

theorem pure (a : α) : Keeps I (Pure.pure a) := fun _ h => h

theorem throw (stop : EditorStop) : Keeps I (throw stop : EStateM EditorStop σ α) := fun _ h => h

theorem get : Keeps I (get : EStateM EditorStop σ σ) := fun _ h => h

theorem bind {x : EStateM EditorStop σ α} {f : α → EStateM EditorStop σ β} (hx : Keeps I x)
    (hf : ∀ a, Keeps I (f a)) : Keeps I (x >>= f) := by
  intro s hs
  have hr := hx s hs
  cases h : x s with
  | error stop s' =>
    rw [leaves_of_error h] at hr
    rwa [leaves_of_error (bind_of_error h)]
  | ok a s' =>
    rw [leaves_of_ok h] at hr
    rw [leaves, bind_of_ok h]
    exact hf a s' hr

end Keeps

end Keeping

/-- A server in this process that was started at some time and has nothing pending. -/
inductive Transport.Rests : Transport → Prop
  | loopback {server : Repl} (lines : List (List Char)) : server.Reachable →
    server.pending = "" → Rests (.loopback server lines)

namespace Dialogue

theorem ofFault_bind {α β : Type} (x : Except Fault α) (k : α → Except Fault β) :
    ofFault (x >>= k) = ofFault x >>= fun a => ofFault (k a) := by
  cases x <;> rfl

theorem ofFault_pure {α : Type} (a : α) : ofFault (pure a) = pure a := rfl

section Keeping

variable {α : Type} {I : Transport → Prop}

theorem keeps_ofDecoded (x : Decoded α) : Keeps I (ofDecoded x) := by
  cases x with
  | ok a => exact .pure a
  | error stop => exact .throw stop

theorem keeps_ofFault (x : Except Fault α) : Keeps I (ofFault x) := by
  cases x with
  | ok a => exact .pure a
  | error f => exact .throw _

theorem keeps_onProtocolError {x : Dialogue α} {otherwise : EditorError → Dialogue α}
    (hx : Keeps I x) (hother : ∀ e, Keeps I (otherwise e)) :
    Keeps I (onProtocolError x otherwise) := by
  intro t ht
  have hr := hx t ht
  cases h : x t with
  | ok a t' =>
    have heq : Dialogue.onProtocolError x otherwise t = .ok a t' := by
      rw [Dialogue.onProtocolError, h]
    rw [leaves_of_ok h] at hr
    rwa [leaves_of_ok heq]
  | error stop t' =>
    rw [leaves_of_error h] at hr
    by_cases hcaught : ∃ e, stop = .error e ∧ e.category = .protocol
    · obtain ⟨e, rfl, he⟩ := hcaught
      have heq : Dialogue.onProtocolError x otherwise t = otherwise e t' := by
        rw [Dialogue.onProtocolError, h]
        exact if_pos he
      rw [leaves, heq]
      exact hother e t' hr
    · have heq : Dialogue.onProtocolError x otherwise t = .error stop t' := by
        rw [Dialogue.onProtocolError, h]
        cases stop with
        | error e => exact if_neg fun he => hcaught ⟨e, rfl, he⟩
        | _ => rfl
      rwa [leaves_of_error heq]

end Keeping

section Request

variable {n : Nat} {text : String} {t : Transport}

/-- A program that runs on for ever has left nothing pending. -/
theorem pending_of_endless {server opened server' : Repl} (hr : server.Reachable)
    (hopen : Repl.connect server = .ok () opened)
    (hread : ∀ f, Datum.readAll (opened.pending ++ text) ≠ .error (.fault f))
    (h : Repl.handle (Engine.ofAllowance n) text server = .error .endless server') :
    server'.pending = "" := by
  have hkept : ¬ Repl.Kept (opened.pending ++ text) := by
    rintro (⟨gap, hgap⟩ | ⟨f, hf⟩)
    · rw [Repl.handle_incomplete hopen hgap] at h
      cases h
    · exact hread f hf
  have hempty := Repl.pending_of_not_kept (Engine.moves_ofAllowance n) hopen
    (hr.opens hopen).reachable.logsReady hkept
  rwa [Serving.after_of_error h] at hempty

theorem closeServer_eq (server : Repl) : closeServer server = Repl.disconnect.after server := by
  unfold closeServer Serving.after
  cases Repl.disconnect server <;> rfl

/-- A text that the reader does not fault on is sent without a fault. -/
theorem send_rests (hread : ∀ f, Datum.readAll text ≠ .error (.fault f)) (ht : t.Rests) :
    (leaves (send (Engine.ofAllowance n) text) t).Rests ∧
      ∀ f t', send (Engine.ofAllowance n) text t ≠ .error (.fault f) t' := by
  cases ht with
  | @loopback server lines hr hpending =>
  obtain ⟨opened, hopen, hopens⟩ := hr.connect_ok
  have hrequest : opened.pending ++ (text ++ "\n") = text ++ "\n" := by
    rw [hopens.pending, hpending, String.empty_append]
  have hfault : ∀ f, Datum.readAll (opened.pending ++ (text ++ "\n")) ≠ .error (.fault f) := by
    intro f h
    rw [hrequest, Datum.readAll_append_feed] at h
    obtain ⟨h, -⟩ | ⟨h, -⟩ := h
    · exact hread f h
    · cases h
  have hgoes := Repl.goesOn_of_ne_fault (Engine.moves_ofAllowance n) hopen
    hopens.reachable.logsReady hfault
  have hreach := hr.handle n (text ++ "\n")
  cases h : Repl.handle (Engine.ofAllowance n) (text ++ "\n") server with
  | ok out server' =>
    rw [Serving.after_of_ok h] at hreach
    by_cases hwaiting : server'.isWaiting = true
    · have hsend : send (Engine.ofAllowance n) text (.loopback server lines) =
          .error (.error (.incompleteRequest (Text.quotedString text)))
            (.loopback { server' with pending := "" } lines) := by
        change sendLoopback _ server lines text _ = _
        rw [sendLoopback, h]
        dsimp only
        rw [if_pos hwaiting]
        rfl
      rw [leaves_of_error hsend, hsend]
      exact ⟨.loopback lines hreach.discard rfl, fun f t' h => by cases h⟩
    · have hempty := hreach.pending_eq (Bool.eq_false_iff.mpr hwaiting)
      rw [leaves_of_ok (send_loopback h hempty lines), send_loopback h hempty lines]
      exact ⟨.loopback _ hreach hempty, fun f t' h => by cases h⟩
  | error stop server' =>
    rw [Serving.after_of_error h] at hreach
    obtain ⟨code, rfl⟩ | rfl := hgoes.outcome stop server' h
    · have hsend : send (Engine.ofAllowance n) text (.loopback server lines) =
          .error (.error (.exited code.text)) (.loopback (closeServer server') lines) := by
        change sendLoopback _ server lines text _ = _
        rw [sendLoopback, h]
        rfl
      rw [leaves_of_error hsend, hsend, closeServer_eq]
      exact ⟨.loopback lines hreach.disconnect (Repl.pending_of_disconnect server'),
        fun f t' h => by cases h⟩
    · have hsend : send (Engine.ofAllowance n) text (.loopback server lines) =
          .error .endless (.loopback server' lines) := by
        change sendLoopback _ server lines text _ = _
        rw [sendLoopback, h]
        rfl
      rw [leaves_of_error hsend, hsend]
      exact ⟨.loopback lines hreach (pending_of_endless hr hopen hfault h), fun f t' h => by cases h⟩

theorem readLine_loopback (server : Repl) (lines : List (List Char)) :
    readLine (.loopback server lines) =
      .ok (lines.headD []) (.loopback server lines.tail) := by
  cases lines <;> rfl

/-- A reply is collected without a fault, and the server is not concerned. -/
theorem collect_loopback (server : Repl) (count : Nat) (read lines : List (List Char)) :
    (∃ rest, leaves (collect read count) (.loopback server lines) = .loopback server rest) ∧
      Concludes (collect read count) (.loopback server lines) := by
  induction count generalizing read lines with
  | zero => exact ⟨⟨lines, rfl⟩, fun stop t h => by cases h; exact ⟨_, rfl⟩⟩
  | succ count ih =>
    have hline : collect read (count + 1) (.loopback server lines) =
        (if (lines.headD []).isEmpty then fail .connectionClosed
        else if !Text.allBlank (Command.dropPrompt (lines.headD [])) then
          collect (Command.dropPrompt (lines.headD []) :: read) count
        else if read.isEmpty then collect read count
        else return String.ofList (Text.dropEnd (· == '\n') read.reverse.flatten) :
          Dialogue String) (.loopback server lines.tail) :=
      bind_of_ok (readLine_loopback server lines)
    rw [leaves, Concludes, hline]
    by_cases hempty : (lines.headD []).isEmpty = true
    · rw [if_pos hempty]
      exact ⟨⟨lines.tail, rfl⟩, (concludes_of_error (x := fail .connectionClosed) rfl).mpr ⟨_, rfl⟩⟩
    rw [if_neg hempty]
    by_cases hblank : (!Text.allBlank (Command.dropPrompt (lines.headD []))) = true
    · rw [if_pos hblank]
      exact ih _ lines.tail
    rw [if_neg hblank]
    by_cases hread : read.isEmpty = true
    · rw [if_pos hread]
      exact ih read lines.tail
    · rw [if_neg hread]
      exact ⟨⟨lines.tail, rfl⟩, fun stop t h => by cases h⟩

theorem readReply_rests (ht : t.Rests) :
    (leaves readReply t).Rests ∧ Concludes readReply t := by
  cases ht with
  | @loopback server lines hr hpending =>
  have hget : (get : Dialogue Transport) (.loopback server lines) =
    .ok (.loopback server lines) (.loopback server lines) := rfl
  obtain ⟨⟨rest, hrest⟩, hends⟩ := collect_loopback server (lines.length + 1) [] lines
  unfold leaves Concludes
  rw [readReply, bind_of_ok hget]
  refine ⟨?_, hends⟩
  change (leaves (collect [] (lines.length + 1)) _).Rests
  rw [hrest]
  exact .loopback rest hr hpending

theorem request_cases (g : Engine) (text : String) :
    (∃ stop, request g text = throw stop ∧
      (∀ f, stop = .fault f ↔ Datum.readAll text = .error (.fault f)) ∧ stop ≠ .endless) ∨
    (∀ f, Datum.readAll text ≠ .error (.fault f)) ∧
      request g text = (send g text >>= fun _ => readReply) := by
  unfold request
  cases hread : Datum.readAll text with
  | ok forms => exact .inr ⟨fun f h => (by cases h), rfl⟩
  | error e =>
    cases e with
    | incomplete gap => exact .inl ⟨_, rfl, by simp, fun h => by cases h⟩
    | fault f => exact .inl ⟨_, rfl, by simp, fun h => by cases h⟩
    | _ => exact .inr ⟨fun f h => (by cases h), rfl⟩

theorem keeps_readReply : Keeps Transport.Rests readReply := fun _ ht => (readReply_rests ht).1

/-- A request leaves the transport at rest. -/
theorem keeps_request (n : Nat) (text : String) :
    Keeps Transport.Rests (request (Engine.ofAllowance n) text) := by
  obtain ⟨stop, h, -⟩ | ⟨hread, h⟩ := request_cases (Engine.ofAllowance n) text
  · rw [h]
    exact .throw stop
  · rw [h]
    exact .bind (fun t ht => (send_rests hread ht).1) fun _ => keeps_readReply

/-- A request faults exactly where the reader does, before anything is sent. -/
theorem request_fault_iff (ht : t.Rests) (f : Fault) :
    (∃ t', request (Engine.ofAllowance n) text t = .error (.fault f) t') ↔
      Datum.readAll text = .error (.fault f) := by
  obtain ⟨stop, h, hfault, -⟩ | ⟨hread, h⟩ := request_cases (Engine.ofAllowance n) text
  · rw [h, ← hfault]
    refine ⟨?_, fun hstop => ⟨t, by rw [hstop]; rfl⟩⟩
    rintro ⟨t', ht'⟩
    cases ht'
    rfl
  · refine ⟨?_, fun hf => absurd hf (hread f)⟩
    rintro ⟨t', ht'⟩
    rw [h] at ht'
    obtain ⟨hrests, hsend⟩ := send_rests (n := n) hread ht
    cases hs : send (Engine.ofAllowance n) text t with
    | error stop t₁ =>
      rw [bind_of_error hs] at ht'
      cases ht'
      exact absurd hs (hsend f t')
    | ok _ t₁ =>
      rw [leaves_of_ok hs] at hrests
      rw [bind_of_ok hs] at ht'
      obtain ⟨e, he⟩ := (readReply_rests hrests).2 _ _ ht'
      cases he

/-- A request that the reader does not fault on comes to an end, unless the server runs on. -/
theorem concludes_request_iff (ht : t.Rests) (hread : ∀ f, Datum.readAll text ≠ .error (.fault f)) :
    Concludes (request (Engine.ofAllowance n) text) t ↔
      ∀ t', request (Engine.ofAllowance n) text t ≠ .error .endless t' := by
  refine ⟨fun h t' ht' => ?_, fun h stop t' ht' => ?_⟩
  · obtain ⟨e, he⟩ := h _ _ ht'
    cases he
  · cases stop with
    | error e => exact ⟨e, rfl⟩
    | fault f => exact absurd ((request_fault_iff ht f).mp ⟨t', ht'⟩) (hread f)
    | endless => exact absurd ht' (h t')

variable {α : Type}

theorem concludes_ofDecoded_iff {x : Decoded α} {c : Bool} (h : x.FaultsExactly c) :
    Concludes (ofDecoded x) t ↔ c = false := by
  cases c with
  | true =>
    obtain ⟨f, rfl⟩ := h.faults rfl
    rw [concludes_of_error (x := ofDecoded (.error (.fault f))) rfl]
    simp
  | false =>
    obtain ⟨a, rfl⟩ | ⟨e, rfl, -⟩ := h.reports rfl
    · exact ⟨fun _ => rfl, fun _ => .of_returns ⟨a, t, rfl⟩⟩
    · rw [concludes_of_error (x := ofDecoded (.error (.error e))) rfl]
      simp

variable {decode : String → Decoded α} {spoilt : String → Bool}

theorem decoded_ok_iff {g : Engine} {v : α} {t' : Transport} :
    (request g text >>= fun reply => ofDecoded (decode reply)) t = .ok v t' ↔
      ∃ reply, request g text t = .ok reply t' ∧ decode reply = .ok v := by
  constructor
  · intro h
    obtain ⟨reply, t₁, hreply, hdecoded⟩ := exists_of_bind_ok h
    cases hd : decode reply with
    | ok w => rw [hd] at hdecoded; cases hdecoded; exact ⟨reply, hreply, hd⟩
    | error stop => rw [hd] at hdecoded; cases hdecoded
  · rintro ⟨reply, hreply, hv⟩
    exact (bind_of_ok hreply).trans (by rw [hv]; rfl)

/-- A question whose reply is decoded comes to an end, unless the server runs on or the reply is
spoilt for the decoder. -/
theorem concludes_decoded_iff (ht : t.Rests)
    (hread : ∀ f, Datum.readAll text ≠ .error (.fault f))
    (hdecode : ∀ reply, (decode reply).FaultsExactly (spoilt reply)) :
    Concludes (request (Engine.ofAllowance n) text >>= fun reply => ofDecoded (decode reply)) t ↔
      (∀ t', request (Engine.ofAllowance n) text t ≠ .error .endless t') ∧
      ∀ reply t', request (Engine.ofAllowance n) text t = .ok reply t' → spoilt reply = false := by
  rw [concludes_bind_iff, concludes_request_iff ht hread]
  exact and_congr_right fun _ => forall₃_congr fun reply t' _ =>
    concludes_ofDecoded_iff (hdecode reply)

end Request

end Dialogue

end LiveScheme
