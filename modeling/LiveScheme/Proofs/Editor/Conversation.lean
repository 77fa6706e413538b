import LiveScheme.Proofs.Editor.Evaluation
import LiveScheme.Proofs.Editor.Lines

/-!
# Conversations

A server that is sent requests to evaluate answers each of them with its reply and a blank line, as
long as no form is the name that spoils its request. From such a request on it waits for the end of
a list, however many requests follow.
-/

namespace LiveScheme

open Text

/-- A request to evaluate a form in a module, with its text. -/
structure EvalRequest where
  home : Option Datum
  form : Datum
  text : String
  home_readsBack : ∀ d ∈ home, d.ReadsBack
  form_readsBack : form.ReadsBack
  evalText_eq : Command.evalText (home.map Datum.write) (some form.write) = .ok text

namespace EvalRequest

theorem text_eq (q : EvalRequest) : ∃ w ts,
    q.text = Command.callText (String.ofList w) q.form.write ∧ Command.Leads w ts ∧
    Datum.Reading.Delivers ts (Command.homeDatum q.home) ∧ ∀ c ∈ w, Datum.IsInline c := by
  obtain ⟨w, ts, htext, hrest⟩ := Command.evalText_ok q.home_readsBack q.form.write
  exact ⟨w, ts, Except.ok.inj (q.evalText_eq.symm.trans htext), hrest⟩

/-- A request goes into one line. -/
theorem ne_feed_of_mem_text (q : EvalRequest) : ∀ c ∈ q.text.toList, c ≠ '\n' := by
  obtain ⟨w, ts, htext, -, -, hw⟩ := q.text_eq
  have hform : ∀ c ∈ Node.chars Empty.elim true q.form, Datum.IsInline c := by
    by_cases hbare : q.form = Datum.bareName
    · rw [hbare]
      decide
    · exact Datum.isInline_chars (q.form_readsBack.readable hbare).lexical
  have hname : ∀ c ∈ '(' :: "geiser:eval".toList ++ [' '], c ≠ '\n' := by decide
  have hquote : ∀ c ∈ [' ', '\x27'], c ≠ '\n' := by decide
  have htoList : q.text.toList = ('(' :: "geiser:eval".toList ++ [' ']) ++
      (w ++ ([' ', '\x27'] ++ (Node.chars Empty.elim true q.form ++ [')']))) := by
    rw [htext, Datum.write, Command.toList_callText]
    simp
  intro c hc
  rw [htoList] at hc
  rcases List.mem_append.mp hc with hc | hc
  · exact hname c hc
  rcases List.mem_append.mp hc with hc | hc
  · exact (hw c hc).1
  rcases List.mem_append.mp hc with hc | hc
  · exact hquote c hc
  rcases List.mem_append.mp hc with hc | hc
  · exact (hform c hc).1
  · rw [List.mem_singleton.mp hc]
    decide

theorem readAll_text (q : EvalRequest) (hne : q.form ≠ Datum.bareName) {blanks : List Char}
    (hb : ∀ c ∈ blanks, isBlank c = true) :
    Datum.readAll (q.text ++ String.ofList blanks) = .ok [Command.evalDatum q.home q.form] := by
  obtain ⟨w, ts, htext, hw, hts, -⟩ := q.text_eq
  rw [htext]
  exact Command.readAll_call hw hts (q.form_readsBack.readable hne) hb

theorem readAll_text_bareName (q : EvalRequest) (hbare : q.form = Datum.bareName)
    {blanks : List Char} (hb : ∀ c ∈ blanks, isBlank c = true) :
    Datum.readAll (q.text ++ String.ofList blanks) = .error (.incomplete .list) := by
  obtain ⟨w, ts, htext, hw, hts, -⟩ := q.text_eq
  rw [htext, hbare]
  exact Command.readAll_call_bareName hw hts hb

/-- The line that a request is sent as. -/
def line (q : EvalRequest) : List Char := q.text.toList ++ ['\n']

theorem ofList_line (q : EvalRequest) : String.ofList q.line = q.text ++ "\n" := by
  rw [line, String.ofList_append, String.ofList_toList]

end EvalRequest

namespace Repl

/-- While evaluation is served, a request to evaluate the form ends with the given reply. -/
structure Replies (r : Repl) (n : Nat) (home : Option Datum) (form : Datum) (rep : Reply) :
    Prop where
  serves : r.machine.ServesEval
  evaluates : ∃ m, Command.evalReply (Engine.ofAllowance (n + 1)) home form
    r.machine.beginCapture = .ok rep m

theorem Replies.of_run' {r : Repl} {n : Nat} {home : Option Datum} {form : Datum} {rep : Reply}
    (hm : r.machine.ServesEval) (h : (Command.evalReply (Engine.ofAllowance (n + 1)) home form).run'
      r.machine.beginCapture = some rep) : r.Replies n home form rep := ⟨hm, exists_of_run' h⟩

theorem readable_newline : (Datum.list [.sym "newline"]).Readable :=
  .list _ (List.forall_mem_singleton.mpr
    (.sym _ (by decide : ReadableName "newline")))

section Answers

variable {n : Nat} {r opened : Repl} (hr : r.Reachable) (hpending : r.pending = "")
  (hconnect : connect r = .ok () opened)

include hr hpending hconnect

/-- The server answers a text that is read as a request to evaluate. -/
theorem handle_replied {home : Option Datum} {form : Datum} {text : String}
    (hread : Datum.readAll (text ++ "\n") = .ok [Command.evalDatum home form]) {rep : Reply}
    (hrep : opened.Replies n home form rep) :
    ∃ r', handle (Engine.ofAllowance (n + 2)) (text ++ "\n") r =
      .ok (rep.datum.write ++ "\n\n") r' ∧ r'.pending = "" := by
  have hopens := hr.opens hconnect
  have hall : Datum.readAll (opened.pending ++ (text ++ "\n")) =
      .ok [Command.evalDatum home form] := by
    rwa [hopens.pending, hpending, String.empty_append]
  obtain ⟨m, hm⟩ := hrep.evaluates
  obtain ⟨k, disk, hhandle⟩ :=
    handle_evalDatum hopens.reachable.logsReady hconnect hall hrep.serves hm
  exact ⟨_, hhandle, rfl⟩

/-- The server answers a request with the reply and a blank line. -/
theorem handle_request (q : EvalRequest) (hne : q.form ≠ Datum.bareName) {rep : Reply}
    (hrep : opened.Replies n q.home q.form rep) :
    ∃ r', handle (Engine.ofAllowance (n + 2)) (q.text ++ "\n") r =
      .ok (rep.datum.write ++ "\n\n") r' ∧ r'.pending = "" := by
  have hfeed : ∀ c ∈ ['\n'], isBlank c = true := by decide
  exact handle_replied hr hpending hconnect (q.readAll_text hne hfeed) hrep

/-- A greeting is answered with blank lines. -/
theorem handle_handshake (hm : opened.machine.Resolves "newline" (.builtin .newline)) :
    ∃ r', handle (Engine.ofAllowance (n + 2)) (Command.handshake none ++ "\n") r =
      .ok "\n\n" r' ∧ r'.pending = "" := by
  have hfeed : ∀ c ∈ ['\n'], isBlank c = true := by decide
  have htext : Command.handshake none ++ "\n" =
      String.ofList (Node.chars Empty.elim true (Datum.list [.sym "newline"]) ++ ['\n']) := by
    decide +kernel
  have hopens := hr.opens hconnect
  have hread : Datum.readAll (opened.pending ++ (Command.handshake none ++ "\n")) =
      .ok [.list [.sym "newline"]] := by
    rw [hopens.pending, hpending, String.empty_append, htext]
    exact readable_newline.reads hfeed
  have hform : Run.ofDatum (.list [.sym "newline"]) opened.machine =
      .ok (.list (.fresh opened.machine.nextTag) [.sym "newline"])
        { opened.machine with nextTag := opened.machine.nextTag + 1 } := rfl
  have hresolves : ({ opened.machine with nextTag := opened.machine.nextTag + 1 } :
      Machine).beginCapture.Resolves "newline" (.builtin .newline) := hm.congr rfl rfl rfl
  have heval := evalForm_of_ok (g := Engine.ofAllowance (n + 2)) hform
    (Engine.eval_newline hresolves (.fresh opened.machine.nextTag))
  obtain ⟨disk, hhandle⟩ := handle_form (Engine.moves_ofAllowance (n + 2)) hconnect
    hopens.reachable.logsReady hread heval
  exact ⟨_, hhandle, rfl⟩

end Answers

/-- Input that ends inside a list, as it does behind a spoiled request. -/
def Awaits (pending : String) : Prop :=
  ∃ (text : String) (ts : List Token) (items : List Datum) (stack : List Datum.Open),
    pending = text ++ "\n" ∧ Lexed.Splits text.toList ts ∧
      Datum.Reading.start.run ts = .ok ⟨[], .list items :: stack⟩

namespace Awaits

open Datum.Reading

theorem readAll {pending : String} (h : Awaits pending) :
    Datum.readAll pending = .error (.incomplete .list) := by
  obtain ⟨text, ts, items, stack, rfl, hsplits, hrun⟩ := h
  have hfeed : ∀ c ∈ ['\n'], isBlank c = true := by decide
  exact Command.readAll_of_splits hsplits hfeed hrun

theorem ne_blank {pending : String} (h : Awaits pending) : allBlank pending.toList = false := by
  cases hblank : allBlank pending.toList with
  | false => rfl
  | true =>
    have hscan : Lexed.ofText pending.toList = ⟨[], none⟩ :=
      Lexed.scanFrom_blank (List.all_eq_true.mp hblank)
    have hread := h.readAll
    rw [Datum.readAll_of_run (r := Datum.Reading.start) (by rw [hscan]; rfl), hscan] at hread
    cases hread

theorem of_bareName {q : EvalRequest} (hbare : q.form = Datum.bareName) :
    Awaits (q.text ++ "\n") := by
  obtain ⟨w, ts, htext, hw, hts, -⟩ := q.text_eq
  refine ⟨q.text, _, _, _, rfl, ?_, Command.run_call_open hts Command.delivers_bareName [] trivial⟩
  rw [htext, hbare]
  exact Command.splits_call_bareName hw

/-- No request ends the list. -/
theorem append {pending : String} (h : Awaits pending) (q : EvalRequest) :
    Awaits (pending ++ (q.text ++ "\n")) := by
  obtain ⟨text, us, items, stack, rfl, hsplits, hrun⟩ := h
  obtain ⟨w, ts, htext, hw, hts, -⟩ := q.text_eq
  have hopens : ∀ {vs : List Token} {items' : List Datum} {stack' : List Datum.Open},
      Lexed.Splits q.text.toList vs →
      run ⟨[], .list items :: stack⟩ vs = .ok ⟨[], .list items' :: stack'⟩ →
      Awaits (text ++ "\n" ++ (q.text ++ "\n")) := by
    intro vs items' stack' hvs hrun'
    have hfeed : ∀ c ∈ ['\n'], isBlank c = true := by decide
    have hboth := hsplits.append hfeed hvs
    rw [← List.append_assoc] at hboth
    refine ⟨text ++ "\n" ++ q.text, us ++ vs, items', stack', ?_, ?_, ?_⟩
    · simp only [String.append_assoc]
    · rwa [String.toList_append, String.toList_append]
    · rw [run_append, hrun]
      exact hrun'
  by_cases hbare : q.form = Datum.bareName
  · have hq := Command.splits_call_bareName hw
    rw [← hbare, ← htext] at hq
    exact hopens hq (Command.run_call_open hts Command.delivers_bareName [] trivial)
  · have hform := q.form_readsBack.readable hbare
    have hq := Command.splits_call hw hform
    rw [← htext] at hq
    exact hopens hq (Command.delivers_call hts hform.delivers [] (.list items :: stack) trivial)

end Awaits

/-- While the server waits it answers nothing, whatever requests come. -/
theorem serveLines_awaits {n : Nat} (interactive : Bool) (written : String)
    (qs : List EvalRequest) {r : Repl} (hr : r.Reachable) (h : Awaits r.pending) :
    (serveLines (Engine.ofAllowance n) interactive written (qs.map EvalRequest.line) r).1 =
      written := by
  have hdue : ∀ {r : Repl}, Awaits r.pending → written ++ r.duePrompt interactive = written := by
    intro r h
    rw [duePrompt, isWaiting, h.ne_blank, Bool.not_false, Bool.not_true, Bool.and_false,
      if_neg (by decide), String.append_empty]
  induction qs generalizing r with
  | nil => exact hdue h
  | cons q qs ih =>
    obtain ⟨opened, hconnect, hopens⟩ := hr.connect_ok
    have hmore : Awaits (opened.pending ++ (q.text ++ "\n")) := hopens.pending ▸ h.append q
    have hhandle := handle_incomplete (g := Engine.ofAllowance n) hconnect hmore.readAll
    have hnext := ih (hr.handled hhandle).1 hmore
    rw [List.map_cons, serveLines, hdue h, q.ofList_line, hhandle]
    dsimp only
    rw [String.append_empty]
    exact hnext

/-- Requests that are sent one after the other, with the replies that their evaluations end with. -/
inductive Converses (n : Nat) : Repl → List EvalRequest → List Reply → Prop
  | nil (r : Repl) : Converses n r [] []
  | cons {r opened : Repl} {q : EvalRequest} {rep : Reply} {qs : List EvalRequest}
    {reps : List Reply} : connect r = .ok () opened → opened.Replies n q.home q.form rep →
    Converses n ((handle (Engine.ofAllowance (n + 2)) (q.text ++ "\n")).after r) qs reps →
    Converses n r (q :: qs) (rep :: reps)

/-- What is written when the replies are answered, each of them behind a prompt. -/
def transcript (prompt : String) : List Reply → String
  | [] => prompt
  | rep :: reps => prompt ++ rep.datum.write ++ "\n\n" ++ transcript prompt reps

/-- The prompt between complete forms. -/
def prompt (interactive : Bool) (r : Repl) : String := if interactive then r.promptText else ""

theorem duePrompt_of_empty (interactive : Bool) {r : Repl} (h : r.pending = "") :
    r.duePrompt interactive = r.prompt interactive := by
  have hwaiting : r.isWaiting = false := by
    rw [isWaiting, h]
    rfl
  rw [duePrompt, prompt, hwaiting, Bool.not_false, Bool.and_true]

theorem serveLines_cons {g : Engine} {interactive : Bool} {r r' : Repl} {out : String}
    (hpending : r.pending = "") {line : List Char}
    (h : handle g (String.ofList line) r = .ok out r') (written : String)
    (rest : List (List Char)) :
    serveLines g interactive written (line :: rest) r =
      serveLines g interactive (written ++ r.prompt interactive ++ out) rest r' := by
  rw [serveLines, duePrompt_of_empty interactive hpending, h]

/-- The replies that are answered are those before the first spoiled request. -/
theorem serveLines_transcript {n : Nat} {interactive : Bool} {r : Repl} {qs : List EvalRequest}
    {reps : List Reply} (h : Converses n r qs reps) (hr : r.Reachable) (hpending : r.pending = "")
    (written : String) :
    ∃ answered, answered <+: reps ∧ (answered = reps ↔ ∀ q ∈ qs, q.form ≠ Datum.bareName) ∧
      (serveLines (Engine.ofAllowance (n + 2)) interactive written (qs.map EvalRequest.line) r).1 =
        written ++ transcript (r.prompt interactive) answered := by
  induction h generalizing written with
  | nil r =>
    refine ⟨[], List.prefix_refl [], by simp, ?_⟩
    rw [List.map_nil, serveLines, duePrompt_of_empty interactive hpending]
    rfl
  | @cons r opened q rep qs reps hconnect hrep hconv ih =>
    by_cases hbare : q.form = Datum.bareName
    · have hawaits : Awaits (opened.pending ++ (q.text ++ "\n")) := by
        rw [(hr.opens hconnect).pending, hpending, String.empty_append]
        exact .of_bareName hbare
      have hhandle := handle_incomplete (g := Engine.ofAllowance (n + 2)) hconnect hawaits.readAll
      rw [← q.ofList_line] at hhandle
      refine ⟨[], List.nil_prefix, ?_, ?_⟩
      · refine ⟨fun h => ?_, fun hall => absurd hbare (hall q List.mem_cons_self)⟩
        cases h
      · rw [List.map_cons, serveLines_cons hpending hhandle, String.append_empty,
          serveLines_awaits interactive _ qs (hr.handled hhandle).1 (q.ofList_line ▸ hawaits)]
        rfl
    · obtain ⟨r', hhandle, hempty⟩ := handle_request hr hpending hconnect q hbare hrep
      obtain ⟨hreach, hprompt⟩ := hr.handled hhandle
      rw [Serving.after_of_ok hhandle] at ih
      rw [← q.ofList_line] at hhandle
      obtain ⟨answered, hpre, hiff, hout⟩ :=
        ih hreach hempty (written ++ r.prompt interactive ++ (rep.datum.write ++ "\n\n"))
      refine ⟨rep :: answered, List.cons_prefix_cons.mpr ⟨rfl, hpre⟩, ?_, ?_⟩
      · rw [List.cons.injEq, List.forall_mem_cons, ← hiff]
        exact ⟨fun h => ⟨hbare, h.2⟩, fun h => ⟨rfl, h.2⟩⟩
      · have hsame : r'.prompt interactive = r.prompt interactive := by
          rw [prompt, prompt, hprompt]
        rw [List.map_cons, serveLines_cons hpending hhandle, hout, hsame, transcript]
        simp only [String.append_assoc]

/-- What is sent to a server: the greeting and the requests, one a line. -/
def inputOf (qs : List EvalRequest) : String :=
  String.join ((Command.handshake none :: qs.map EvalRequest.text).map (· ++ "\n"))

theorem feedLines_inputOf (qs : List EvalRequest) :
    feedLines (inputOf qs).toList =
      (Command.handshake none ++ "\n").toList :: qs.map EvalRequest.line := by
  have hgreeting : ∀ c ∈ (Command.handshake none).toList, c ≠ '\n' := by decide
  have hrest : ∀ qs : List EvalRequest, feedLines (qs.flatMap EvalRequest.line) =
      qs.map EvalRequest.line := by
    intro qs
    induction qs with
    | nil => rfl
    | cons q qs ih =>
      rw [List.flatMap_cons, EvalRequest.line, List.append_assoc]
      exact (feedLines_append q.ne_feed_of_mem_text _).trans (congrArg _ ih)
  have hinput : (inputOf qs).toList =
      (Command.handshake none).toList ++ '\n' :: qs.flatMap EvalRequest.line := by
    rw [inputOf, String.toList_join, List.map_cons, List.flatMap_cons, List.flatMap_map,
      List.flatMap_map, String.toList_append, List.append_assoc]
    simp only [String.toList_append]
    rfl
  rw [hinput, feedLines_append hgreeting, hrest]
  rfl

/-- A conversation of a whole connection. -/
theorem serve_transcript {n : Nat} (interactive : Bool) {server opened : Repl}
    (hr : server.Reachable) (hpending : server.pending = "")
    (hconnect : connect server = .ok () opened)
    (hgreets : opened.machine.Resolves "newline" (.builtin .newline)) {qs : List EvalRequest}
    {reps : List Reply} (h : Converses n ((handle (Engine.ofAllowance (n + 2))
      (Command.handshake none ++ "\n")).after opened) qs reps) :
    ∃ answered, answered <+: reps ∧ (answered = reps ↔ ∀ q ∈ qs, q.form ≠ Datum.bareName) ∧
      (serve (Engine.ofAllowance (n + 2)) interactive (inputOf qs) server).1 =
        server.prompt interactive ++ "\n\n" ++ transcript (server.prompt interactive) answered := by
  have hopens := hr.opens hconnect
  obtain ⟨r, hhandle, hempty⟩ := handle_handshake hopens.reachable (hopens.pending.trans hpending)
    hopens.connect hgreets
  obtain ⟨hreach, hprompt⟩ := hopens.reachable.handled hhandle
  rw [Serving.after_of_ok hhandle] at h
  have hgreeting : String.ofList (Command.handshake none ++ "\n").toList =
      Command.handshake none ++ "\n" := String.ofList_toList
  rw [← hgreeting] at hhandle
  obtain ⟨answered, hpre, hiff, hout⟩ := serveLines_transcript h hreach
    hempty ("" ++ opened.prompt interactive ++ "\n\n")
  refine ⟨answered, hpre, hiff, ?_⟩
  have hsame : r.prompt interactive = server.prompt interactive := by
    rw [prompt, prompt, hprompt, hopens.promptText]
  have hsame' : opened.prompt interactive = server.prompt interactive := by
    rw [prompt, prompt, hopens.promptText]
  rw [serve, hconnect]
  dsimp only
  rw [feedLines_inputOf, serveLines_cons (hopens.pending.trans hpending) hhandle, hout, hsame,
    hsame', String.empty_append]

end Repl

end LiveScheme
