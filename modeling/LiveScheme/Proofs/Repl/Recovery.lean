import LiveScheme.Proofs.Reading.Fault
import LiveScheme.Proofs.Repl.Chunks

/-!
# Input that cannot be read

Input that the reader rejects is answered with the reading error and dropped, and the server goes on
as if it had not come. A fault of the reader is answered by nobody: it ends the call with the input
still pending, and then every further line is met with the same fault. So the server goes on exactly
as long as the reader does not fault.
-/

namespace LiveScheme

namespace Repl

variable {g : Engine} {places : Place → Prop}

theorem Logs.agree_self {m : Machine} {id : Nat} {text : String} {disk : Disk}
    (hd : Logs id text m disk) (hm : m.LogsReady) (hlog : LogsWithin places (some id) m) :
    m.disk.AgreesOff places disk := by
  unfold Logs at hd
  cases hpath : (m.connections.getD id default).logFile with
  | none =>
    rw [hpath] at hd
    subst hd
    exact .refl _
  | some path =>
    rw [hpath] at hd
    exact .append_self hd (hm id path hpath) (hlog id rfl path hpath)

/-- A text is answered whatever it is, and nothing but the log changes. -/
theorem respond_agree {r : Repl} (hr : r.LogsReady)
    (hlog : LogsWithin places r.connection r.machine) (request text : String) :
    ∃ s, respond request text r = .ok text s ∧ r.AgreesOff places s := by
  obtain hid | ⟨id, hid⟩ := Option.eq_none_or_eq_some r.connection
  · exact ⟨r, respond_of_none hid request text, rfl, .refl _⟩
  · obtain ⟨disk, hd⟩ := exists_logs hr.machine id (logged request text)
    exact ⟨_, respond_of_logs hr hid hd, rfl, rfl, hd.agree_self hr.machine (hid ▸ hlog)⟩

/-- How a computation on a server ends: with an answer, or with a stop that has no text, and with
the same input pending. -/
def AnswersOrStops (x : Serving String) (r : Repl) : Prop :=
  (∃ text s, x r = .ok text s ∧ s.pending = r.pending ∧ s.LogsReady) ∨
    ∃ stop s, x r = .error stop s ∧ s.pending = r.pending ∧ Reply.messageOf? stop = none

theorem answer_cases (hg : g.Moves) {r : Repl} (hr : r.LogsReady) (request : String)
    (form : Datum) : AnswersOrStops (answer g request form) r := by
  cases heval : evalForm g form r.machine with
  | error stop m =>
    exact .inr ⟨stop, _, bind_of_error (onMachine_of_error heval), rfl, messageOf?_of_evalForm heval⟩
  | ok answered m =>
    obtain ⟨values, printed⟩ := answered
    obtain ⟨disk, hreply⟩ := reply_ok (logsReady_of_evalForm hg hr heval) request values
    have hanswer := answer_of_ok heval hreply
    refine .inl ⟨_, _, hanswer, rfl, ?_⟩
    have hfollows := moves_answer hg request form r
    rw [Serving.after_of_ok hanswer] at hfollows
    exact hfollows.logsReady hr

theorem answers_cases (hg : g.Moves) {r : Repl} (hr : r.LogsReady) (request : String)
    (forms : List Datum) : AnswersOrStops (answers g request forms) r := by
  induction forms generalizing r with
  | nil => exact .inl ⟨"", r, rfl, rfl, hr⟩
  | cons form rest ih =>
    unfold AnswersOrStops
    rw [answers]
    rcases answer_cases hg hr request form with
      ⟨here, s, h, hpending, hready⟩ | ⟨stop, s, h, hpending, hstop⟩
    · rw [bind_of_ok h]
      rcases ih hready with ⟨there, t, h', hpending', hready'⟩ | ⟨stop, t, h', hpending', hstop⟩
      · rw [bind_of_ok h']
        exact .inl ⟨here ++ there, t, rfl, hpending'.trans hpending, hready'⟩
      · rw [bind_of_error h']
        exact .inr ⟨stop, t, rfl, hpending'.trans hpending, hstop⟩
    · rw [bind_of_error h]
      exact .inr ⟨stop, s, rfl, hpending, hstop⟩

theorem handle_rejected {r r' : Repl} (h : connect r = .ok () r') {text : String} {e : ReadError}
    (hread : Datum.readAll (r'.pending ++ text) = .error e) (hgap : e.isIncomplete = false)
    (hfault : ∀ f, e ≠ .fault f) :
    handle g text r = respond (r'.pending ++ text) ((Reply.error e.message).datum.write ++ "\n\n")
      { r' with pending := "" } := by
  rw [handle_of_connect h, hread]
  cases e with
  | incomplete gap => cases hgap
  | fault f => exact absurd rfl (hfault f)
  | unexpectedChar | unexpectedDot | unexpectedClose | badCharName | badNumber | badDottedList
  | unclosedTail => rfl

theorem handle_fault {r r' : Repl} (h : connect r = .ok () r') {text : String} {f : Fault}
    (hread : Datum.readAll (r'.pending ++ text) = .error (.fault f)) :
    handle g text r = .error (.fault f) { r' with pending := r'.pending ++ text } := by
  rw [handle_of_connect h, hread]
  rfl

/-- What is pending plays no part in opening a connection. -/
theorem connect_discard {r opened : Repl} (h : connect r = .ok () opened) :
    connect { r with pending := "" } = .ok () { opened with pending := "" } := by
  obtain ⟨m, loadPath, logFile, promptText, connection, pending⟩ := r
  cases connection with
  | some id =>
    rw [connect_of_some rfl] at h
    cases h
    rfl
  | none =>
    rw [connect_of_none rfl] at h ⊢
    dsimp only at h ⊢
    cases hopen : Run.openConnection loadPath logFile m with
    | error stop n => rw [hopen] at h; cases h
    | ok id n => rw [hopen] at h; cases h; rfl

/-- The server goes on after the input: it answers, unless the program exits or runs on for ever,
and nothing is pending but input that can still be completed. -/
structure GoesOn (g : Engine) (text : String) (r : Repl) : Prop where
  outcome : ∀ stop s, handle g text r = .error stop s →
    (∃ code, stop = .exit code) ∨ stop = .endless
  pending : Resumable ((handle g text).after r).pending

theorem goesOn_of_ne_fault (hg : g.Moves) {r opened : Repl} (hopen : connect r = .ok () opened)
    (hr : opened.LogsReady) {text : String}
    (hread : ∀ f, Datum.readAll (opened.pending ++ text) ≠ .error (.fault f)) :
    GoesOn g text r := by
  have hready : LogsReady { opened with pending := "" } := ⟨hr.machine, hr.logFile⟩
  cases hforms : Datum.readAll (opened.pending ++ text) with
  | ok forms =>
    have heq := handle_forms (g := g) hopen hforms
    rcases answers_cases hg hready (opened.pending ++ text) forms with
      ⟨out, s, h, hpending, -⟩ | ⟨stop, s, h, hpending, hstop⟩
    · rw [h] at heq
      refine ⟨fun stop t ht => ?_, .inl ?_⟩
      · rw [heq] at ht
        cases ht
      · rw [Serving.after_of_ok heq, hpending]
    · rw [h] at heq
      refine ⟨fun stop' t ht => ?_, .inl ?_⟩
      · rw [heq] at ht
        cases ht
        exact messageOf?_eq_none.mp hstop
      · rw [Serving.after_of_error heq, hpending]
  | error e =>
    cases hgap : e.isIncomplete with
    | true =>
      cases e with
      | incomplete gap =>
        have heq := handle_incomplete (g := g) hopen hforms
        refine ⟨fun stop t ht => ?_, .inr ⟨gap, ?_⟩⟩
        · rw [heq] at ht
          cases ht
        · rw [Serving.after_of_ok heq]
          exact hforms
      | _ => cases hgap
    | false =>
      have hfault : ∀ f, e ≠ .fault f := by
        rintro f rfl
        exact hread f hforms
      have heq := handle_rejected (g := g) hopen hforms hgap hfault
      obtain ⟨disk, h⟩ := respond_ok hready (opened.pending ++ text)
        ((Reply.error e.message).datum.write ++ "\n\n")
      rw [h] at heq
      refine ⟨fun stop t ht => ?_, .inl ?_⟩
      · rw [heq] at ht
        cases ht
      · rw [Serving.after_of_ok heq]

/-- Every text is met with a fault. -/
def Stuck (g : Engine) (f : Fault) : List String → Repl → Prop
  | [], _ => True
  | text :: rest, r => ∃ s, handle g text r = .error (.fault f) s ∧ Stuck g f rest s

/-- A server with a faulty line pending takes no line any more. -/
theorem stuck_of_fault {r : Repl} {id : Nat} (hid : r.connection = some id) {f : Fault}
    (hl : AtLineEnd r.pending.toList) (hread : Datum.readAll r.pending = .error (.fault f))
    {lines : List String} (hls : ∀ line ∈ lines, AtLineEnd line.toList) : Stuck g f lines r := by
  induction lines generalizing r with
  | nil => trivial
  | cons line rest ih =>
    have hread' := Datum.readAll_fault_append hl hread line
    refine ⟨_, handle_fault (connect_of_some hid) hread', ih hid ?_ hread' fun l hmem => ?_⟩
    · change AtLineEnd (r.pending ++ line).toList
      rw [String.toList_append]
      exact hl.append (hls line List.mem_cons_self)
    · exact hls l (List.mem_cons_of_mem _ hmem)

/-- The server `s` is `r` with its connection open, but for the files at the given places, and
answers complete requests as `r` does, as long as no form looks at these files. -/
structure StandsInFor (places : Place → Prop) (r s : Repl) : Prop where
  agrees : (connect.after r).AgreesOff places s
  answers : ∀ allowance later forms, Datum.readAll later = .ok forms →
    Settles (Engine.ofAllowance allowance) places later forms (connect.after r) →
    ∃ out t t', handle (Engine.ofAllowance allowance) later r = .ok out t ∧
      handle (Engine.ofAllowance allowance) later s = .ok out t' ∧ t.AgreesOff places t'

theorem standsInFor_of_agrees {r opened s : Repl} {id : Nat}
    (hopen : connect r = .ok () opened) (hpending : opened.pending = "") (hr : opened.LogsReady)
    (hid : opened.connection = some id) (h : opened.AgreesOff places s) :
    StandsInFor places r s := by
  refine ⟨by rwa [Serving.after_of_ok hopen], fun allowance later forms hread hs => ?_⟩
  rw [Serving.after_of_ok hopen] at hs
  have hempty : s.pending = "" := h.pending.trans hpending
  have hself : { opened with pending := "" } = opened := by rw [← hpending]
  have hself' : { s with pending := "" } = s := by rw [← hempty]
  have hlater : opened.pending ++ later = later := by rw [hpending, String.empty_append]
  have hlater' : s.pending ++ later = later := by rw [hempty, String.empty_append]
  rw [← List.append_nil forms] at hs
  obtain ⟨out, t, t', ht, ht', hagree, -⟩ :=
    answers_agree (Engine.moves_ofAllowance allowance) hr h hs later
  refine ⟨out, t, t', ?_, ?_, hagree⟩
  · rw [handle_forms hopen (by rwa [hlater]), hlater, hself, ht]
  · rw [handle_forms (connect_of_some (h.connection.trans hid)) (by rwa [hlater']), hlater',
      hself', ht']

end Repl

end LiveScheme
