import LiveScheme.Proofs.Editor.Conversation
import LiveScheme.Proofs.Editor.Framing

/-!
# Evaluating in a server of the same process

A session that talks to a server in its own process gets the reply that the service makes, and has
read all of it, exactly when the form is not the name that spoils its request and the reply arrives
as it was sent.
-/

namespace LiveScheme

open Text

namespace Engine

theorem eval_sym {n : Nat} {name : String} {s : Scope} {stop : Stop} {m m' : Machine}
    (h : (ofAllowance (n + 1)).eval (.sym name) s m = .error stop m') :
    stop = .endless ∨ ∃ home, stop = .error (.unboundIn name home) := by
  have heval : (ofAllowance (n + 1)).eval (.sym name) s m = Run.lookup name s m := by
    cases hl : Run.lookup name s m with
    | ok v m₁ => exact eval_of_step (bind_of_ok hl)
    | error stop m₁ =>
      have hstep : (ofAllowance n).step s (.sym name) m = .error stop m₁ := bind_of_error hl
      exact bind_of_error hstep
  have hget : (get : Run Machine) m = .ok m m := rfl
  rw [heval] at h
  unfold Run.lookup at h
  rw [bind_of_ok hget] at h
  cases hfind : m.find name s with
  | frame id => rw [hfind] at h; cases h
  | home id => rw [hfind] at h; cases h
  | absent =>
    rw [hfind] at h
    cases h
    exact .inr ⟨_, rfl⟩
  | endless =>
    rw [hfind] at h
    cases h
    exact .inl rfl

end Engine

theorem Reply.ofValues_ne_error (m : Machine) (values : List Value) (output message : String) :
    ofValues m values output ≠ .error message := by
  unfold ofValues
  split <;> (intro h; cases h)

theorem Reply.error_of_capture {x : Run Value} {m m' : Machine} {message : String}
    (h : Reply.capture x m = .ok (.error message) m') :
    ∃ stop m₁, x m.beginCapture = .error stop m₁ ∧ messageOf? stop = some message := by
  cases hrun : x m.beginCapture with
  | ok v m₁ =>
    rw [Reply.capture_of_ok hrun] at h
    exact absurd (EStateM.Result.ok.inj h).1 (ofValues_ne_error _ _ _ _)
  | error stop m₁ =>
    unfold Reply.capture at h
    rw [bind_of_ok (Run.capturing_of_error hrun)] at h
    dsimp only at h
    cases hmessage : messageOf? stop with
    | some text =>
      rw [hmessage] at h
      cases h
      exact ⟨stop, m₁, rfl, hmessage⟩
    | none =>
      rw [hmessage] at h
      cases h

namespace Command

/-- A name fails to be evaluated only when it is unbound. -/
theorem message_of_evalReply_sym {n : Nat} {home : Option Datum} {name message : String}
    {m m' : Machine} (h : evalReply (Engine.ofAllowance (n + 1)) home (.sym name) m =
      .ok (.error message) m') : ∃ owner, message = (SchemeError.unboundIn name owner).message := by
  obtain ⟨v, tag, hv⟩ := Run.ofDatum_ok (homeDatum home) m
  have hf : ∀ m₁ : Machine, Run.ofDatum (Datum.quoted (.sym name)) m₁ =
      .ok (.list (.fresh m₁.nextTag) [.sym "quote", .sym name])
        { m₁ with nextTag := m₁.nextTag + 1 } := fun _ => rfl
  unfold evalReply at h
  rw [bind_of_ok hv, bind_of_ok (hf _)] at h
  obtain ⟨stop, m₁, hstop, hmessage⟩ := Reply.error_of_capture h
  rcases Engine.eval_sym hstop with rfl | ⟨owner, rfl⟩
  · cases hmessage
  · exact ⟨owner, (Option.some.inj hmessage).symm⟩

end Command

namespace Dialogue

variable {g : Engine}

theorem request_of_readAll {text : String} {forms : List Datum}
    (h : Datum.readAll text = .ok forms) :
    request g text = (send g text >>= fun _ => readReply) := by
  rw [request, h]

theorem send_loopback {server server' : Repl} {text out : String}
    (h : Repl.handle g (text ++ "\n") server = .ok out server')
    (hempty : server'.pending = "") (queue : List (List Char)) :
    send g text (.loopback server queue) =
      .ok () (.loopback server' (queue ++ lines out.toList)) := by
  have hwaiting : server'.isWaiting = false := by
    rw [Repl.isWaiting, hempty]
    rfl
  have hget : (get : Dialogue Transport) (.loopback server queue) =
    .ok (.loopback server queue) (.loopback server queue) := rfl
  rw [send, bind_of_ok hget]
  unfold sendLoopback
  dsimp only
  rw [h]
  dsimp only
  rw [hwaiting]
  rfl

end Dialogue

namespace Session

open Dialogue

variable {g : Engine}

/-- What a session makes of the text of a reply to an evaluation. -/
def received (text : String) : Dialogue EvalReply :=
  onProtocolError (ofDecoded (Decode.evalReply text)) fun e => return .error e.message

theorem received_write (r : Reply) (t : Transport) :
    received r.datum.write t = .ok r.decoded t := by
  rw [received, Decode.evalReply_write]
  rfl

theorem eq_of_received {text : String} {t t' : Transport} {reply : EvalReply}
    (h : received text t = .ok reply t') : t' = t := by
  unfold received onProtocolError at h
  cases hd : Decode.evalReply text with
  | ok r =>
    rw [hd] at h
    cases h
    rfl
  | error stop =>
    have hthrow : ofDecoded (.error stop : Decoded EvalReply) t = .error stop t := rfl
    rw [hd, hthrow] at h
    dsimp only at h
    cases stop with
    | error e =>
      dsimp only at h
      split at h <;> cases h
      rfl
    | fault f => cases h
    | endless => cases h

theorem eval_eq {form home : Option String} {text : String}
    (htext : Command.evalText home form = .ok text) :
    eval g form home = onProtocolError (request g text >>= fun reply =>
      ofDecoded (Decode.evalReply reply)) fun e => return .error e.message := by
  have hcommand : command g "eval" [home, form] none = request g text := by
    have hexpression : Command.expression ⟨"eval", [home, form]⟩ none = .ok text := htext
    rw [command, hexpression]
    rfl
  rw [eval, hcommand]

theorem eval_of_request {form home : Option String} {text reply : String} {t t' : Transport}
    (htext : Command.evalText home form = .ok text) (h : request g text t = .ok reply t') :
    eval g form home t = received reply t' := by
  rw [eval_eq htext]
  unfold received onProtocolError
  rw [bind_of_ok h]

/-- A request that spoils itself is refused before it is sent. -/
theorem eval_bareName (q : EvalRequest) (hbare : q.form = Datum.bareName) (t : Transport) :
    eval g (some q.form.write) (q.home.map Datum.write) t =
      .ok (.error (EditorError.incompleteRequest Gap.list.message).message) t := by
  have hnone : ∀ c ∈ [], isBlank c = true := List.forall_mem_nil _
  have hread := q.readAll_text_bareName hbare hnone
  rw [String.ofList_nil, String.append_empty] at hread
  have hrequest : request g q.text t =
      .error (.error (.incompleteRequest Gap.list.message)) t := by
    rw [request, hread]
    rfl
  rw [eval_eq q.evalText_eq]
  unfold onProtocolError
  rw [bind_of_error hrequest]
  rfl

/-- No evaluation of a name ends with the text that a request is refused with. -/
theorem error_ne_of_evalReply_sym {n : Nat} {home : Option Datum} {name : String} {rep : Reply}
    {m m' : Machine}
    (h : Command.evalReply (Engine.ofAllowance (n + 1)) home (.sym name) m = .ok rep m')
    (gap : Gap) : rep.decoded ≠ .error (EditorError.incompleteRequest gap.message).message := by
  intro heq
  cases rep with
  | result values output => cases heq
  | error message =>
    obtain ⟨owner, rfl⟩ := Command.message_of_evalReply_sym h
    have hmessage : "symbol `" ++ name ++ "' unbound in module `" ++ owner ++ "'" =
        "incomplete request: " ++ gap.message := EvalReply.error.inj heq
    have hfirst := congrArg (fun s : String => s.toList.head?) hmessage
    rw [String.append_assoc, String.append_assoc, String.append_assoc] at hfirst
    have hunbound : ∀ text : String, ("symbol `" ++ text).toList.head? = some 's' := fun text =>
      congrArg List.head? String.toList_append
    have hrefused : ∀ text : String, ("incomplete request: " ++ text).toList.head? = some 'i' :=
      fun text => congrArg List.head? String.toList_append
    have hfirst' : some 's' = some 'i' :=
      (hunbound _).symm.trans (hfirst.trans (hrefused _))
    cases hfirst'

/-- Any other request is sent, and its reply is read from among the lines that come back. -/
theorem eval_of_ne {n : Nat} {server opened : Repl} (hr : server.Reachable)
    (hpending : server.pending = "") (hconnect : Repl.connect server = .ok () opened)
    (q : EvalRequest) (hne : q.form ≠ Datum.bareName) {rep : Reply}
    (hrep : opened.Replies n q.home q.form rep) (queue : List (List Char)) :
    ∃ server', server'.Reachable ∧ server'.pending = "" ∧
      ∀ reply t, readReply (.loopback server' (queue ++ (rep.sent ++ [['\n']]))) = .ok reply t →
        eval (Engine.ofAllowance (n + 2)) (some q.form.write) (q.home.map Datum.write)
          (.loopback server queue) = received reply t := by
  have hnone : ∀ c ∈ [], isBlank c = true := List.forall_mem_nil _
  obtain ⟨server', hhandle, hempty⟩ := Repl.handle_request hr hpending hconnect q hne hrep
  have hread := q.readAll_text hne hnone
  rw [String.ofList_nil, String.append_empty] at hread
  refine ⟨server', (hr.handled hhandle).1, hempty, fun reply t ht =>
    eval_of_request q.evalText_eq ?_⟩
  rw [request_of_readAll hread, bind_of_ok (send_loopback hhandle hempty queue), rep.lines_reply]
  exact ht

/-- A session gets the reply to an evaluation, and leaves none of it for the next request, exactly
when the request can be sent and the reply arrives as it was sent. -/
theorem eval_loopback {n : Nat} {server opened : Repl} (hr : server.Reachable)
    (hpending : server.pending = "") (hconnect : Repl.connect server = .ok () opened)
    {home : Option Datum} {form : Datum} {rep : Reply} (hhome : ∀ d ∈ home, d.ReadsBack)
    (hform : form.ReadsBack) (hrep : opened.Replies n home form rep)
    {queue : List (List Char)} (hqueue : Quiet queue) :
    (form ≠ Datum.bareName ∧ rep.IsFramed → ∃ server', server'.Reachable ∧ server'.pending = "" ∧
      eval (Engine.ofAllowance (n + 2)) (some form.write) (home.map Datum.write)
        (.loopback server queue) = .ok rep.decoded (.loopback server' [])) ∧
    ∀ server' queue', eval (Engine.ofAllowance (n + 2)) (some form.write) (home.map Datum.write)
        (.loopback server queue) = .ok rep.decoded (.loopback server' queue') → Quiet queue' →
      form ≠ Datum.bareName ∧ rep.IsFramed := by
  obtain ⟨w, ts, htext, -⟩ := Command.evalText_ok hhome form.write
  let q : EvalRequest := ⟨home, form, _, hhome, hform, htext⟩
  by_cases hbare : form = Datum.bareName
  · refine ⟨fun h => absurd hbare h.1, fun server' queue' heval => ?_⟩
    obtain ⟨m, hm⟩ := hrep.evaluates
    rw [eval_bareName q hbare] at heval
    rw [hbare] at hm
    exact absurd (EStateM.Result.ok.inj heval).1.symm (error_ne_of_evalReply_sym hm .list)
  obtain ⟨server', hreach, hempty, hevals⟩ :=
    eval_of_ne hr hpending hconnect q hbare hrep queue
  have hcan : (Transport.loopback server' (queue ++ (rep.sent ++ [['\n']]))).CanRead := trivial
  rcases readReply_sent hcan rfl hqueue with ⟨r', hread, hiff⟩ | ⟨text, rest, hread, hrest, hnot⟩
  · have heval := (hevals _ _ hread).trans (received_write r' _)
    refine ⟨fun h => ⟨server', hreach, hempty, ?_⟩, fun server'' queue'' heval' _ => ⟨hbare, ?_⟩⟩
    · rw [heval, hiff.mpr h.2]
      rfl
    · rw [heval] at heval'
      exact hiff.mp (Reply.decoded_injective (EStateM.Result.ok.inj heval').1)
  · refine ⟨fun h => absurd h.2 hnot, fun server'' queue'' heval hquiet => ?_⟩
    rw [hevals _ _ hread] at heval
    cases eq_of_received heval
    exact absurd hquiet hrest

/-- A sum evaluated in a new server. -/
theorem eval_loopback_idle : ∃ server', server'.Reachable ∧ server'.pending = "" ∧
    eval (Engine.ofAllowance 20) (some (Datum.list [.sym "+", .int 1, .int 2]).write) none
      (.loopback Repl.idle []) = .ok (.result ["3"] "") (.loopback server' []) := by
  have hconnection : Repl.idle.connection = some 0 := by decide +kernel
  have hform : (Datum.list [.sym "+", .int 1, .int 2]).ReadsBack :=
    (Datum.readable_sum 1 2).readsBack
  have hrep : Repl.idle.Replies 18 none (.list [.sym "+", .int 1, .int 2]) (.result ["3"] "") :=
    .of_run' (by decide +kernel) (by decide +kernel)
  have hhome : ∀ d ∈ (none : Option Datum), d.ReadsBack := by simp
  have hqueue : Quiet [] := List.forall_mem_nil _
  exact (eval_loopback Repl.reachable_idle (by decide +kernel) (Repl.connect_of_some hconnection)
    hhome hform hrep hqueue).1 ⟨fun h => (by cases h), by decide +kernel⟩

end Session

end LiveScheme
