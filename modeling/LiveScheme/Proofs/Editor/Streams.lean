import LiveScheme.Proofs.Editor.Conversation
import LiveScheme.Proofs.Editor.Framing

/-!
# Replies from a stream

On a stream whose lines end at the line feed only, a reply is one line: no text of it holds a line
feed, and none of it looks like a prompt. The session drops the prompt in front of the line, and
passes over blank lines, so it reads the replies that the server has written, one after the other,
and leaves nothing but a last prompt.
-/

namespace LiveScheme

open Text

namespace Command

/-- A text that is dropped from the start of a line: a prompt, or nothing. -/
def IsPrompt (prompt : List Char) : Prop :=
  prompt = [] ∨ ∃ word, (∀ c ∈ word, isPromptChar c = true) ∧ prompt = word ++ ['>', ' ']

namespace IsPrompt

/-- A prompt that is shown is dropped, whatever stands behind it. -/
theorem dropPrompt_of_ne {prompt : List Char} (h : IsPrompt prompt) (hne : prompt ≠ [])
    (cs : List Char) : dropPrompt (prompt ++ cs) = cs := by
  obtain ⟨word, hword, rfl⟩ := h.resolve_left hne
  rw [List.append_assoc]
  exact Command.dropPrompt_append hword cs

theorem dropPrompt_append {prompt : List Char} (h : IsPrompt prompt) {cs : List Char}
    (hno : NoPrompt cs) : dropPrompt (prompt ++ cs) = cs := by
  by_cases hne : prompt = []
  · subst hne
    exact dropPrompt_of_noPrompt hno
  · exact h.dropPrompt_of_ne hne cs

theorem ne_feed {prompt : List Char} (h : IsPrompt prompt) : ∀ c ∈ prompt, c ≠ '\n' := by
  have hmark : ∀ c ∈ ['>', ' '], c ≠ '\n' := by decide
  rcases h with rfl | ⟨word, hword, rfl⟩
  · exact List.forall_mem_nil _
  · intro c hc
    rcases List.mem_append.mp hc with hc | hc
    · rintro rfl
      exact absurd (hword _ hc) (by decide)
    · exact hmark c hc

end IsPrompt

theorem noPrompt_feed : NoPrompt ['\n'] :=
  noPrompt_of_blank (List.forall_mem_nil _) (b := '\n') (by decide) []

theorem noPrompt_nil : NoPrompt [] := fun word rest _ heq => by cases word <;> cases heq

end Command

namespace Dialogue

open Command Repl

/-- Several replies, one after the other. -/
def readReplies : Nat → Dialogue (List String)
  | 0 => return []
  | count + 1 => do
    let here ← readReply
    return here :: (← readReplies count)

/-- The lines that are written when replies are answered. -/
def transcriptLines (prompt : List Char) : List Reply → List (List Char)
  | [] => if prompt.isEmpty then [] else [prompt]
  | rep :: reps =>
    (prompt ++ (rep.datum.write.toList ++ ['\n'])) :: ['\n'] :: transcriptLines prompt reps

theorem feedLines_transcript {prompt : String} (h : IsPrompt prompt.toList) (reps : List Reply) :
    feedLines (transcript prompt reps).toList = transcriptLines prompt.toList reps := by
  induction reps with
  | nil => exact feedLines_of_ne h.ne_feed
  | cons rep reps ih =>
    have hline : ∀ c ∈ prompt.toList ++ rep.datum.write.toList, c ≠ '\n' := by
      intro c hc
      rcases List.mem_append.mp hc with hc | hc
      · exact h.ne_feed c hc
      · exact rep.ne_feed_of_mem_write c hc
    have htext : (transcript prompt (rep :: reps)).toList =
        prompt.toList ++ rep.datum.write.toList ++
          '\n' :: '\n' :: (transcript prompt reps).toList := by
      rw [transcript]
      simp only [String.toList_append, List.append_assoc]
      rfl
    rw [htext, feedLines_append_feeds hline, ih, transcriptLines, List.append_assoc]

theorem separates_feed {prompt : List Char} (h : IsPrompt prompt) :
    Separates (prompt ++ ['\n']) := by
  refine ⟨by simp, ?_⟩
  rw [h.dropPrompt_append noPrompt_feed]
  decide

theorem separates_prompt {prompt : List Char} (h : IsPrompt prompt) :
    ∀ line ∈ transcriptLines prompt [], Separates line := by
  intro line hline
  unfold transcriptLines at hline
  split at hline
  · cases hline
  · next hne =>
    have hdrop := h.dropPrompt_append noPrompt_nil
    rw [List.append_nil] at hdrop
    rw [List.mem_singleton.mp hline]
    refine ⟨by simpa using hne, ?_⟩
    rw [hdrop]
    rfl

/-- Behind the last reply there is none. -/
theorem readReply_of_separates {t : Transport} (h : t.CanRead)
    (hl : ∀ line ∈ t.lines, Separates line) :
    readReply t = .error (.error .connectionClosed) (t.withLines []) := by
  have hget : (get : Dialogue Transport) t = .ok t t := rfl
  have hread : readLine (t.withLines []) = .ok [] (t.withLines []) := by
    cases t with
    | loopback server ls => rfl
    | streams incoming sent isOpen =>
      cases h
      rfl
  rw [readReply, bind_of_ok hget, lineCount_eq,
    collect_append h (List.append_nil t.lines).symm hl, collect, bind_of_ok hread]
  rfl

/-- The line of a reply, behind lines that are passed over. -/
theorem readReply_line {t : Transport} (h : t.CanRead) {prompt : List Char} (hp : IsPrompt prompt)
    {front rest : List (List Char)} (hf : ∀ line ∈ front, Separates line) {rep : Reply}
    (hl : t.lines = front ++ (prompt ++ (rep.datum.write.toList ++ ['\n'])) :: ['\n'] :: rest) :
    readReply t = .ok rep.datum.write (t.withLines rest) := by
  have hfeed : Separates ['\n'] := separates_feed (.inl rfl)
  have hdrop := hp.dropPrompt_append rep.noPrompt_chars
  have hline : ∀ line ∈ [prompt ++ (rep.datum.write.toList ++ ['\n'])], Carries line := by
    obtain ⟨body, hbody⟩ := rep.chars_eq_cons
    have hopen : isBlank '(' = false := by decide
    refine List.forall_mem_singleton.mpr ⟨by simp, ?_⟩
    rw [hdrop, hbody]
    simp [allBlank, hopen]
  have hread := readReply_ok h hl hf (List.cons_ne_nil _ _) hline hfeed
  rwa [List.flatMap_cons, List.flatMap_nil, List.append_nil, hdrop, dropEnd_sent] at hread

theorem readReplies_transcript {t : Transport} (h : t.CanRead) {prompt : List Char}
    (hp : IsPrompt prompt) {front : List (List Char)} (hf : ∀ line ∈ front, Separates line)
    {reps : List Reply} (hl : t.lines = front ++ transcriptLines prompt reps) :
    ∃ rest, readReplies reps.length t = .ok (reps.map (·.datum.write)) (t.withLines rest) ∧
      ∀ line ∈ rest, Separates line := by
  induction reps generalizing t front with
  | nil =>
    have ht : t.withLines t.lines = t := by cases t <;> rfl
    refine ⟨t.lines, by rw [ht]; rfl, ?_⟩
    rw [hl]
    exact List.forall_mem_append.mpr ⟨hf, separates_prompt hp⟩
  | cons rep reps ih =>
    have hread := readReply_line h hp hf hl
    have hnone : ∀ line ∈ [], Separates line := List.forall_mem_nil _
    obtain ⟨rest, hrest, hblank⟩ := ih (h.withLines _) hnone (Transport.lines_withLines t _)
    rw [Transport.withLines_withLines, List.nil_append] at hrest
    refine ⟨rest, ?_, hblank⟩
    rw [List.length_cons, readReplies]
    exact (bind_of_ok hread).trans (bind_of_ok hrest)

/-- No more replies are read than were written. -/
theorem readReplies_of_lt {t : Transport} (h : t.CanRead) {prompt : List Char}
    (hp : IsPrompt prompt) {front : List (List Char)} (hf : ∀ line ∈ front, Separates line)
    {reps : List Reply} (hl : t.lines = front ++ transcriptLines prompt reps) {count : Nat}
    (hc : reps.length < count) : ∃ stop t', readReplies count t = .error stop t' := by
  obtain ⟨count, rfl⟩ := Nat.exists_eq_succ_of_ne_zero (Nat.ne_of_gt (Nat.zero_lt_of_lt hc))
  induction reps generalizing t front count with
  | nil =>
    have hnone : ∀ line ∈ t.lines, Separates line := by
      rw [hl]
      exact List.forall_mem_append.mpr ⟨hf, separates_prompt hp⟩
    exact ⟨_, _, bind_of_error (readReply_of_separates h hnone)⟩
  | cons rep reps ih =>
    have hread := readReply_line h hp hf hl
    have hnone : ∀ line ∈ [], Separates line := List.forall_mem_nil _
    obtain ⟨count, rfl⟩ := Nat.exists_eq_succ_of_ne_zero
      (Nat.ne_of_gt (Nat.lt_of_lt_of_le (Nat.succ_pos reps.length) (Nat.le_of_lt_succ hc)))
    obtain ⟨stop, t', hstop⟩ := ih (h.withLines _) hnone (Transport.lines_withLines t _) count
      (Nat.lt_of_succ_lt_succ hc)
    exact ⟨stop, t', (bind_of_ok hread).trans (bind_of_error hstop)⟩

end Dialogue

namespace Session

open Command Repl Dialogue

theorem isPrompt_prompt {r : Repl} (h : IsPrompt r.promptText.toList) (interactive : Bool) :
    IsPrompt (r.prompt interactive).toList := by
  cases interactive with
  | true => exact h
  | false => exact .inl rfl

/-- Over two streams a session reads the replies to its requests in order, and nothing else but
blank lines and prompts, exactly when no form spoils its request. -/
theorem readReplies_serve {n : Nat} {server opened : Repl} (hr : server.Reachable)
    (hpending : server.pending = "") (hprompt : IsPrompt server.promptText.toList)
    (hconnect : connect server = .ok () opened)
    (hgreets : opened.machine.Resolves "newline" (.builtin .newline)) {qs : List EvalRequest}
    {reps : List Reply} (h : Converses n ((handle (Engine.ofAllowance (n + 2))
      (handshake none ++ "\n")).after opened) qs reps) (interactive : Bool) (sent : String) :
    (∃ rest, readReplies reps.length (.streams (feedLines
        (serve (Engine.ofAllowance (n + 2)) interactive (inputOf qs) server).1.toList) sent true) =
          .ok (reps.map (·.datum.write)) (.streams rest sent true) ∧
      ∀ line ∈ rest, allBlank (dropPrompt line) = true) ↔
    ∀ q ∈ qs, q.form ≠ Datum.bareName := by
  obtain ⟨answered, hpre, hiff, hout⟩ :=
    serve_transcript interactive hr hpending hconnect hgreets h
  have hp := isPrompt_prompt hprompt interactive
  have htext : (server.prompt interactive ++ "\n\n" ++
      transcript (server.prompt interactive) answered).toList =
        (server.prompt interactive).toList ++
          '\n' :: '\n' :: (transcript (server.prompt interactive) answered).toList := by
    simp only [String.toList_append, List.append_assoc]
    rfl
  have hlines : feedLines
      (serve (Engine.ofAllowance (n + 2)) interactive (inputOf qs) server).1.toList =
      [(server.prompt interactive).toList ++ ['\n'], ['\n']] ++
        transcriptLines (server.prompt interactive).toList answered := by
    rw [hout, htext, feedLines_append_feeds hp.ne_feed, feedLines_transcript hp]
    rfl
  have hfront : ∀ line ∈ [(server.prompt interactive).toList ++ ['\n'], ['\n']], Separates line :=
    List.forall_mem_cons.mpr ⟨separates_feed hp,
      List.forall_mem_singleton.mpr (separates_feed (.inl rfl))⟩
  rw [hlines, ← hiff]
  have hcan : (Transport.streams ([(server.prompt interactive).toList ++ ['\n'], ['\n']] ++
      transcriptLines (server.prompt interactive).toList answered) sent true).CanRead := rfl
  constructor
  · rintro ⟨rest, hread, -⟩
    refine hpre.eq_of_length (Nat.le_antisymm hpre.length_le (Nat.le_of_not_lt fun hlt => ?_))
    obtain ⟨stop, t', hstop⟩ := readReplies_of_lt hcan hp hfront rfl hlt
    rw [hread] at hstop
    cases hstop
  · rintro rfl
    obtain ⟨rest, hread, hblank⟩ := readReplies_transcript hcan hp hfront rfl
    exact ⟨rest, hread, fun line hline => (hblank line hline).2⟩

/-- A request for a sum. -/
def sumRequest : EvalRequest where
  home := none
  form := .list [.sym "+", .int 1, .int 2]
  text := "(geiser:eval #f '(+ 1 2))"
  home_readsBack := by simp
  form_readsBack := (Datum.readable_sum 1 2).readsBack
  evalText_eq := rfl

/-- A sum asked for over two streams. -/
theorem readReplies_serve_idle : ∃ rest, readReplies 1 (.streams (feedLines
    (serve (Engine.ofAllowance 20) true (inputOf [sumRequest]) idle).1.toList) "" true) =
      .ok ["((result \"3\") (output . \"\"))"] (.streams rest "" true) ∧
    ∀ line ∈ rest, allBlank (dropPrompt line) = true := by
  have hconnection : idle.connection = some 0 := by decide +kernel
  have hconnection' : ((handle (Engine.ofAllowance 20) (handshake none ++ "\n")).after
      idle).connection = some 0 := by decide +kernel
  have hprompt : IsPrompt idle.promptText.toList :=
    .inr ⟨['s', 't', 'k', 'l', 'o', 's'], by decide, by decide +kernel⟩
  have hconverses : Converses 18 ((handle (Engine.ofAllowance 20) (handshake none ++ "\n")).after
      idle) [sumRequest] [.result ["3"] ""] :=
    .cons (connect_of_some hconnection') (.of_run' (by decide +kernel) (by decide +kernel)) (.nil _)
  exact (readReplies_serve reachable_idle (by decide +kernel) hprompt
    (connect_of_some hconnection) (by decide +kernel) hconverses true "").mpr
    (List.forall_mem_singleton.mpr fun h => by cases h)

end Session

end LiveScheme
