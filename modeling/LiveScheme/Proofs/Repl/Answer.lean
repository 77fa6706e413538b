import LiveScheme.Proofs.Repl.Reachable

/-!
# Answering one form

A form is turned into a value, which always works, and evaluated with its output captured. It has an
answer unless the program exits or runs on for ever; on a reachable server the answer is written out
and logged without fail.
-/

namespace LiveScheme

namespace Run

mutual

/-- Every datum is a value that is written like it. Making it takes new identities and depends on
nothing else. -/
theorem ofDatum_fresh : ∀ (d : Datum) (tag : Nat), ∃ v n,
    (∀ m : Machine, m.nextTag = tag → Run.ofDatum d m = .ok v { m with nextTag := n }) ∧
      ∀ name readable, Node.chars name readable v = Node.chars Empty.elim readable d
  | .bool b, tag => ⟨_, tag, fun m hm => by rw [← hm]; rfl, fun _ _ => rfl⟩
  | .int n, tag => ⟨_, tag, fun m hm => by rw [← hm]; rfl, fun _ _ => rfl⟩
  | .char c, tag => ⟨_, tag, fun m hm => by rw [← hm]; rfl, fun _ _ => rfl⟩
  | .sym name, tag => ⟨_, tag, fun m hm => by rw [← hm]; rfl, fun _ _ => rfl⟩
  | .real x, tag => ⟨.real (.fresh tag) x, tag + 1, fun m hm => by rw [← hm]; rfl, fun _ _ => rfl⟩
  | .str text, tag =>
    ⟨.str (.fresh tag) text, tag + 1, fun m hm => by rw [← hm]; rfl, fun _ _ => rfl⟩
  | .list items, tag => by
    obtain ⟨vs, n, h, hchars, -⟩ := ofData_fresh items tag
    refine ⟨.list (.fresh n) vs, n + 1, fun m hm => ?_, fun name readable => ?_⟩
    · unfold Run.ofDatum
      rw [bind_of_ok (h m hm)]
      rfl
    · rw [Node.chars, Node.chars, hchars]
  | .vector items, tag => by
    obtain ⟨vs, n, h, hchars, -⟩ := ofData_fresh items tag
    refine ⟨.vector (.fresh n) vs, n + 1, fun m hm => ?_, fun name readable => ?_⟩
    · unfold Run.ofDatum
      rw [bind_of_ok (h m hm)]
      rfl
    · rw [Node.chars, Node.chars, hchars]
  | .improper items tail, tag => by
    obtain ⟨vs, n, h, hchars, -⟩ := ofData_fresh items tag
    obtain ⟨v, k, ht, htail⟩ := ofDatum_fresh tail n
    refine ⟨.improper (.fresh k) vs v, k + 1, fun m hm => ?_, fun name readable => ?_⟩
    · unfold Run.ofDatum
      rw [bind_of_ok (h m hm), bind_of_ok (ht { m with nextTag := n } rfl)]
      rfl
    · rw [Node.chars, Node.chars, hchars, htail]
  | .object kind _, _ => kind.elim

theorem ofData_fresh : ∀ (ds : List Datum) (tag : Nat), ∃ vs n,
    (∀ m : Machine, m.nextTag = tag → Run.ofData ds m = .ok vs { m with nextTag := n }) ∧
      (∀ name readable,
        Node.itemsChars name readable vs = Node.itemsChars Empty.elim readable ds) ∧
      (vs = [] ↔ ds = [])
  | [], tag => ⟨[], tag, fun m hm => by rw [← hm]; rfl, fun _ _ => rfl, by simp⟩
  | d :: rest, tag => by
    obtain ⟨v, n, h, hchars⟩ := ofDatum_fresh d tag
    obtain ⟨vs, k, hrest, hitems, hempty⟩ := ofData_fresh rest n
    refine ⟨v :: vs, k, fun m hm => ?_, fun name readable => ?_, by simp⟩
    · unfold Run.ofData
      rw [bind_of_ok (h m hm), bind_of_ok (hrest { m with nextTag := n } rfl)]
      rfl
    · cases rest with
      | nil =>
        cases hempty.mpr rfl
        change Node.chars name readable v ++ [] = Node.chars Empty.elim readable d ++ []
        rw [hchars]
      | cons e rest =>
        cases vs with
        | nil => cases hempty.mp rfl
        | cons w vs =>
          change Node.chars name readable v ++ ' ' :: Node.itemsChars name readable (w :: vs) =
            Node.chars Empty.elim readable d ++
              ' ' :: Node.itemsChars Empty.elim readable (e :: rest)
          rw [hchars, hitems]

end

theorem ofDatum_ok (d : Datum) (m : Machine) :
    ∃ v n, Run.ofDatum d m = .ok v { m with nextTag := n } := by
  obtain ⟨v, n, h, -⟩ := ofDatum_fresh d m.nextTag
  exact ⟨v, n, h m rfl⟩

end Run

namespace Repl

variable {g : Engine}

theorem evalForm_of_ok {form : Datum} {e v : Value} {m m₁ m₂ : Machine}
    (he : Run.ofDatum form m = .ok e m₁)
    (hv : g.eval e (.ofModule m₁.current) m₁.beginCapture = .ok v m₂) :
    evalForm g form m = .ok (v.spread, m₂.console.captures.headD "") m₂.endCapture := by
  have hget : (get : Run Machine) m₁ = .ok m₁ m₁ := rfl
  unfold evalForm
  rw [bind_of_ok he, bind_of_ok hget, bind_of_ok (Run.capturing_of_ok hv)]
  rfl

theorem evalForm_of_error {form : Datum} {e : Value} {stop : Stop} {m m₁ m₂ : Machine}
    (he : Run.ofDatum form m = .ok e m₁)
    (hv : g.eval e (.ofModule m₁.current) m₁.beginCapture = .error stop m₂) :
    evalForm g form m = (match Reply.messageOf? stop with
      | some message => do
        return ([← (Reply.error message).value], m₂.console.captures.headD "")
      | none => throw stop : Run (List Value × String)) m₂.endCapture := by
  have hget : (get : Run Machine) m₁ = .ok m₁ m₁ := rfl
  unfold evalForm
  rw [bind_of_ok he, bind_of_ok hget]
  exact bind_of_ok (Run.capturing_of_error hv)

/-- An answer without a text of its own is an exit or an endless run. -/
theorem messageOf?_eq_none {stop : Stop} :
    Reply.messageOf? stop = none ↔ (∃ code, stop = .exit code) ∨ stop = .endless := by
  cases stop <;> simp [Reply.messageOf?]

/-- Every error of a form is answered. -/
theorem messageOf?_of_evalForm {form : Datum} {stop : Stop} {m n : Machine}
    (h : evalForm g form m = .error stop n) : Reply.messageOf? stop = none := by
  obtain ⟨e, tag, he⟩ := Run.ofDatum_ok form m
  cases hv : g.eval e (.ofModule ({ m with nextTag := tag } : Machine).current)
      ({ m with nextTag := tag } : Machine).beginCapture with
  | ok v m₂ =>
    rw [evalForm_of_ok he hv] at h
    cases h
  | error stop' m₂ =>
    have heq := evalForm_of_error he hv
    cases hmessage : Reply.messageOf? stop' with
    | some message =>
      obtain ⟨v, k, hvalue⟩ := Run.ofDatum_ok (Reply.error message).datum m₂.endCapture
      rw [hmessage] at heq
      rw [heq.trans (bind_of_ok hvalue)] at h
      cases h
    | none =>
      rw [hmessage, h] at heq
      cases heq
      exact hmessage

/-- A form that neither exits nor runs on for ever. -/
def Ends (g : Engine) (form : Datum) (m : Machine) : Prop :=
  ∀ stop n, evalForm g form m = .error stop n → (∀ code, stop ≠ .exit code) ∧ stop ≠ .endless

theorem evalForm_ok {form : Datum} {m : Machine} (h : Ends g form m) :
    ∃ answer n, evalForm g form m = .ok answer n := by
  cases heval : evalForm g form m with
  | ok answer n => exact ⟨answer, n, rfl⟩
  | error stop n =>
    obtain ⟨hexit, hendless⟩ := h stop n heval
    obtain ⟨code, rfl⟩ | rfl := messageOf?_eq_none.mp (messageOf?_of_evalForm heval)
    · exact absurd rfl (hexit code)
    · exact absurd rfl hendless

/-- Evaluating a form leaves the logs ready. -/
theorem logsReady_of_evalForm (hg : g.Moves) {r : Repl} (hr : r.LogsReady) {form : Datum}
    {answer : List Value × String} {m : Machine} (h : evalForm g form r.machine = .ok answer m) :
    LogsReady { r with machine := m } := by
  have hmoves := Serving.Moves.onMachine (moves_evalForm hg form) r
  rw [Serving.after_of_ok (onMachine_of_ok h)] at hmoves
  exact hmoves.logsReady hr

theorem answer_of_ok {r s : Repl} {form : Datum} {request printed text : String}
    {values : List Value} {m : Machine} (heval : evalForm g form r.machine = .ok (values, printed) m)
    (hreply : reply request values { r with machine := m } = .ok text s) :
    answer g request form r = .ok (printed ++ text) s := by
  unfold answer
  rw [bind_of_ok (onMachine_of_ok heval)]
  exact bind_of_ok hreply

/-- What a server does with input once its connection is open. -/
theorem handle_of_connect {r r' : Repl} (h : connect r = .ok () r') (text : String) :
    handle g text r = (match Datum.readAll (r'.pending ++ text) with
      | .error (.incomplete _) => pure ""
      | .error (.fault f) => throw (.fault f)
      | .error e => do
        modify fun r => { r with pending := "" }
        respond (r'.pending ++ text) ((Reply.error e.message).datum.write ++ "\n\n")
      | .ok forms => do
        modify fun r => { r with pending := "" }
        answers g (r'.pending ++ text) forms : Serving String)
      { r' with pending := r'.pending ++ text } := by
  unfold handle
  rw [bind_of_ok h]
  rfl

theorem handle_incomplete {r r' : Repl} (h : connect r = .ok () r') {text : String} {gap : Gap}
    (hread : Datum.readAll (r'.pending ++ text) = .error (.incomplete gap)) :
    handle g text r = .ok "" { r' with pending := r'.pending ++ text } := by
  rw [handle_of_connect h, hread]
  rfl

theorem handle_forms {r r' : Repl} (h : connect r = .ok () r') {text : String}
    {forms : List Datum} (hread : Datum.readAll (r'.pending ++ text) = .ok forms) :
    handle g text r = answers g (r'.pending ++ text) forms { r' with pending := "" } := by
  rw [handle_of_connect h, hread]
  rfl

/-- Input that is one form, with the values and the output of the form. -/
theorem handle_form (hg : g.Moves) {r r' : Repl} (h : connect r = .ok () r') (hr : r'.LogsReady)
    {text : String} {form : Datum} (hread : Datum.readAll (r'.pending ++ text) = .ok [form])
    {values : List Value} {printed : String} {m : Machine}
    (heval : evalForm g form r'.machine = .ok (values, printed) m) :
    ∃ disk, handle g text r = .ok (printed ++ linesOf m values)
      { r' with machine := { m with disk }, pending := "" } := by
  have hdropped : LogsReady { r' with pending := "" } := ⟨hr.machine, hr.logFile⟩
  obtain ⟨disk, hreply⟩ :=
    reply_ok (logsReady_of_evalForm hg hdropped heval) (r'.pending ++ text) values
  have hanswer : answer g (r'.pending ++ text) form { r' with pending := "" } =
      .ok (printed ++ linesOf m values) { r' with machine := { m with disk }, pending := "" } :=
    answer_of_ok heval hreply
  refine ⟨disk, ?_⟩
  rw [handle_forms h hread, answers, bind_of_ok hanswer]
  exact congrArg (EStateM.Result.ok · _) String.append_empty

end Repl

end LiveScheme
