import LiveScheme.Proofs.Machine.Agreement
import LiveScheme.Proofs.Reading.Prefix
import LiveScheme.Proofs.Repl.Answer

/-!
# Input in pieces

A text of whole lines can be handed to the server at once or cut at line ends. Forms are evaluated
as soon as they are complete, so the answers come out in the same order and the server ends in the
same state, up to the log: each form is logged together with the request that completed it. A form
that reads the log back can tell the difference, so such forms are left out.
-/

namespace LiveScheme

theorem Machine.AgreesOff.linesOf {places : Place → Prop} {m m' : Machine}
    (h : m.AgreesOff places m') (values : List Value) :
    Repl.linesOf m' values = Repl.linesOf m values := by
  simp only [Repl.linesOf, h.write]

namespace Repl

variable {g : Engine} {places : Place → Prop}

/-- Servers that differ at most in the texts of the files at the given places. -/
structure AgreesOff (places : Place → Prop) (r r' : Repl) : Prop where
  rest : r' = { r with machine := r'.machine }
  machine : r.machine.AgreesOff places r'.machine

/-- The texts of the files at the given places make no difference to a form. -/
def Ignores (g : Engine) (places : Place → Prop) (form : Datum) (m : Machine) : Prop :=
  ∀ m', m.AgreesOff places m' → ∀ answer n, evalForm g form m = .ok answer n →
    ∃ n', evalForm g form m' = .ok answer n' ∧ n.AgreesOff places n'

/-- The exchanges of the connection are logged at the given places, if anywhere. -/
def LogsWithin (places : Place → Prop) (connection : Option Nat) (m : Machine) : Prop :=
  ∀ id, connection = some id → ∀ path, (m.connections.getD id default).logFile = some path →
    ∀ place, m.disk.locate path = .ok place → places place

/-- Forms of a request that can all be answered, one after the other, without regard to the files
at the given places, among them the log. -/
def Settles (g : Engine) (places : Place → Prop) (request : String) : List Datum → Repl → Prop
  | [], _ => True
  | form :: rest, r =>
    Ends g form r.machine ∧ Ignores g places form r.machine ∧
      (∀ answer m, evalForm g form r.machine = .ok answer m → LogsWithin places r.connection m) ∧
      ∀ text r', answer g request form r = .ok text r' → Settles g places request rest r'

/-- Input that is empty or waits for more. -/
def Resumable (pending : String) : Prop :=
  pending = "" ∨ ∃ gap, Datum.readAll pending = .error (.incomplete gap)

/-- Handing over pieces of input, one after another, without a stop: what is answered in all, and
the server at the end. Between pieces the server has nothing pending or waits for more. -/
inductive Feeds (g : Engine) : Repl → List String → String → Repl → Prop
  | nil (r : Repl) : Feeds g r [] "" r
  | cons {r r' r'' : Repl} {chunk here there : String} {rest : List String} :
    handle g chunk r = .ok here r' → Resumable r'.pending → Feeds g r' rest there r'' →
    Feeds g r (chunk :: rest) (here ++ there) r''

theorem LogsReady.agree {r : Repl} {m' : Machine} (hr : r.LogsReady)
    (h : r.machine.AgreesOff places m') : LogsReady { r with machine := m' } where
  machine id path hpath := h.disk.holds (hr.machine id path (h.connections ▸ hpath))
  logFile path hpath hne := h.disk.holds (hr.logFile path hpath hne)

/-- A log at one of the given places can be added to on both machines, and they still agree. -/
theorem Logs.agree {m m' : Machine} {id : Nat} {text : String} {disk : Disk}
    (hd : Logs id text m disk) (h : m.AgreesOff places m')
    (hlog : LogsWithin places (some id) m) (text' : String) :
    ∃ disk', Logs id text' m' disk' ∧ disk.AgreesOff places disk' := by
  unfold Logs at hd ⊢
  rw [h.connections]
  cases hpath : (m.connections.getD id default).logFile with
  | none =>
    rw [hpath] at hd
    subst hd
    exact ⟨m'.disk, rfl, h.disk⟩
  | some path =>
    rw [hpath] at hd
    exact h.disk.append hd (hlog id rfl path hpath) text'

theorem rest_trans {r s t : Repl} (h : s = { r with machine := s.machine })
    (h' : t = { s with machine := t.machine }) : t = { r with machine := t.machine } := by
  rw [h', h]

theorem reply_agree {r : Repl} {m' : Machine} (hr : r.LogsReady)
    (h : r.machine.AgreesOff places m') (hlog : LogsWithin places r.connection r.machine)
    (request request' : String) (values : List Value) : ∃ s s',
      reply request values r = .ok (linesOf r.machine values) s ∧
      reply request' values { r with machine := m' } = .ok (linesOf r.machine values) s' ∧
      s.AgreesOff places s' ∧ s = { r with machine := s.machine } := by
  have hready : LogsReady { r with machine := m' } := hr.agree h
  simp only [reply_eq_respond, h.linesOf]
  obtain hid | ⟨id, hid⟩ := Option.eq_none_or_eq_some r.connection
  · have hid' : ({ r with machine := m' } : Repl).connection = none := hid
    exact ⟨r, { r with machine := m' }, respond_of_none hid _ _, respond_of_none hid' _ _,
      ⟨rfl, h⟩, rfl⟩
  · obtain ⟨disk, hd⟩ := exists_logs hr.machine id (logged request (linesOf r.machine values))
    obtain ⟨disk', hd', hagree⟩ :=
      hd.agree h (hid ▸ hlog) (logged request' (linesOf r.machine values))
    exact ⟨_, _, respond_of_logs hr hid hd, respond_of_logs hready hid hd',
      ⟨rfl, h.withDisk hagree⟩, rfl⟩

theorem answer_agree {r r' : Repl} (hg : g.Moves) (hr : r.LogsReady)
    (h : r.AgreesOff places r') {form : Datum} {rest : List Datum} {request : String}
    (hs : Settles g places request (form :: rest) r) (request' : String) :
    ∃ text s s', answer g request form r = .ok text s ∧ answer g request' form r' = .ok text s' ∧
      s.AgreesOff places s' ∧ s = { r with machine := s.machine } := by
  obtain ⟨hends, hignores, hwithin, -⟩ := hs
  obtain ⟨⟨values, printed⟩, m, heval⟩ := evalForm_ok hends
  obtain ⟨m', heval', hm⟩ := hignores r'.machine h.machine _ m heval
  obtain ⟨s, s', hs, hs', hss, hrest⟩ :=
    reply_agree (logsReady_of_evalForm hg hr heval) hm (hwithin _ _ heval) request request' values
  have hsame : { r' with machine := m' } = { r with machine := m' } := by rw [h.rest]
  exact ⟨printed ++ linesOf m values, s, s', answer_of_ok heval hs,
    answer_of_ok heval' (hsame ▸ hs'), hss, hrest⟩

theorem answers_agree {r r' : Repl} (hg : g.Moves) (hr : r.LogsReady)
    (h : r.AgreesOff places r') {forms rest : List Datum} {request : String}
    (hs : Settles g places request (forms ++ rest) r) (request' : String) :
    ∃ text s s', answers g request forms r = .ok text s ∧
      answers g request' forms r' = .ok text s' ∧ s.AgreesOff places s' ∧
      s = { r with machine := s.machine } ∧ s.LogsReady ∧ Settles g places request rest s := by
  induction forms generalizing r r' with
  | nil => exact ⟨"", r, r', rfl, rfl, h, rfl, hr, hs⟩
  | cons form forms ih =>
    obtain ⟨here, s₁, s₁', h₁, h₁', hagree, hrest₁⟩ := answer_agree hg hr h hs request'
    have hready : s₁.LogsReady := by
      have hfollows := moves_answer hg request form r
      rw [Serving.after_of_ok h₁] at hfollows
      exact hfollows.logsReady hr
    obtain ⟨there, s, s', h₂, h₂', hss, hrest, hready', hsettles⟩ :=
      ih hready hagree (hs.2.2.2 _ _ h₁)
    refine ⟨here ++ there, s, s', ?_, ?_, hss, rest_trans hrest₁ hrest, hready', hsettles⟩
    · rw [answers, bind_of_ok h₁, bind_of_ok h₂]
      rfl
    · rw [answers, bind_of_ok h₁', bind_of_ok h₂']
      rfl

theorem answers_append {r s t : Repl} {request here there : String} {forms rest : List Datum}
    (h : answers g request forms r = .ok here s) (h' : answers g request rest s = .ok there t) :
    answers g request (forms ++ rest) r = .ok (here ++ there) t := by
  induction forms generalizing r here with
  | nil =>
    cases h
    rw [String.empty_append]
    exact h'
  | cons form forms ih =>
    rw [answers] at h
    cases h₁ : answer g request form r with
    | error stop s₁ => rw [bind_of_error h₁] at h; cases h
    | ok text s₁ =>
      rw [bind_of_ok h₁] at h
      cases h₂ : answers g request forms s₁ with
      | error stop s₂ => rw [bind_of_error h₂] at h; cases h
      | ok texts s₂ =>
        rw [bind_of_ok h₂] at h
        cases h
        rw [List.cons_append, answers, bind_of_ok h₁, bind_of_ok (ih h₂), String.append_assoc]
        rfl

theorem AgreesOff.connection {r r' : Repl} (h : r.AgreesOff places r') :
    r'.connection = r.connection := by
  rw [h.rest]

theorem AgreesOff.pending {r r' : Repl} (h : r.AgreesOff places r') :
    r'.pending = r.pending := by
  rw [h.rest]

theorem Resumable.eq_empty {pending : String} {forms : List Datum} (h : Resumable pending)
    (hread : Datum.readAll pending = .ok forms) : pending = "" := by
  rcases h with hempty | ⟨gap, hgap⟩
  · exact hempty
  · rw [hgap] at hread
    cases hread

/-- What the forms of the input answer in one go, its pieces answer one after the other. The server
`r` has yet to answer the forms; `r'` has taken part of their text already. -/
theorem feeds_agree (hg : g.Moves) {chunks : List String} {r : Repl} (r' : Repl) {id : Nat}
    (hr : r.LogsReady) (hid : r.connection = some id)
    (h : r.AgreesOff places { r' with pending := "" }) (hpending : Resumable r'.pending)
    (hl : AtLineEnd r'.pending.toList) (hls : ∀ chunk ∈ chunks, AtLineEnd chunk.toList)
    {forms : List Datum} (hread : Datum.readAll (r'.pending ++ String.join chunks) = .ok forms)
    {request : String} (hs : Settles g places request forms r) :
    ∃ text s s', answers g request forms r = .ok text s ∧ Feeds g r' chunks text s' ∧
      s.AgreesOff places s' ∧ s = { r with machine := s.machine } := by
  induction chunks generalizing r r' forms with
  | nil =>
    rw [String.join_nil, String.append_empty] at hread
    have hempty := hpending.eq_empty hread
    rw [hempty] at hread
    rw [Datum.readAll_empty] at hread
    cases hread
    refine ⟨"", r, r', rfl, .nil r', ?_, rfl⟩
    rwa [← hempty] at h
  | cons chunk rest ih =>
    have hid' : r'.connection = some id := h.connection.trans hid
    have hconnect := connect_of_some hid'
    have hline := hls chunk List.mem_cons_self
    have hlines : ∀ chunk ∈ rest, AtLineEnd chunk.toList := fun _ hmem =>
      hls _ (List.mem_cons_of_mem _ hmem)
    have hl' : AtLineEnd (r'.pending ++ chunk).toList := by
      rw [String.toList_append]
      exact hl.append hline
    rw [String.join_cons, ← String.append_assoc] at hread
    rcases Datum.readAll_append hl' hread with ⟨gap, hgap⟩ | ⟨before, after, hb, ha, rfl⟩
    · obtain ⟨text, s, s', hanswers, hfeeds, hagree, hrest⟩ :=
        ih { r' with pending := r'.pending ++ chunk } hr hid h (.inr ⟨gap, hgap⟩) hl' hlines
          hread hs
      refine ⟨text, s, s', hanswers, ?_, hagree, hrest⟩
      rw [← String.empty_append (s := text)]
      exact .cons (handle_incomplete hconnect hgap) (.inr ⟨gap, hgap⟩) hfeeds
    · obtain ⟨here, t, t', hhere, hhere', hagree, hrest, hready, hsettles⟩ :=
        answers_agree hg hr h hs (r'.pending ++ chunk)
      have hidt : t.connection = some id := by rw [hrest, hid]
      have hempty : t'.pending = "" := by
        rw [hagree.pending, hrest]
        exact h.pending.symm
      have hagree' : t.AgreesOff places { t' with pending := "" } := by
        rwa [← hempty]
      have hnil : AtLineEnd t'.pending.toList := by
        rw [hempty]
        exact .nil
      have hread' : Datum.readAll (t'.pending ++ String.join rest) = .ok after := by
        rwa [hempty, String.empty_append]
      obtain ⟨there, s, s', hthere, hfeeds, hss, hrest'⟩ :=
        ih t' hready hidt hagree' (.inl hempty) hnil hlines hread' hsettles
      refine ⟨here ++ there, s, s', answers_append hhere hthere, ?_, hss, rest_trans hrest hrest'⟩
      exact .cons ((handle_forms hconnect hb).trans hhere') (.inl hempty) hfeeds

theorem Feeds.of_connect {r r' s : Repl} {chunk text : String} {chunks : List String}
    (h : connect r = .ok () r') (h' : connect r' = .ok () r')
    (hfeeds : Feeds g r' (chunk :: chunks) text s) : Feeds g r (chunk :: chunks) text s := by
  cases hfeeds with
  | cons hhandle hresumable hrest =>
    rw [handle_of_connect h', ← handle_of_connect h] at hhandle
    exact .cons hhandle hresumable hrest

/-- A text of whole lines is answered the same in one go and cut at line ends in any way, when every
form ends and none looks at the files the exchanges are logged to. -/
theorem handle_chunks {allowance : Nat} {places : Place → Prop} {r : Repl} (hr : r.Reachable)
    (hpending : r.pending = "") {text : String} {forms : List Datum}
    (hread : Datum.readAll text = .ok forms)
    (hs : ∀ r', connect r = .ok () r' →
      Settles (Engine.ofAllowance allowance) places text forms r')
    {chunks : List String} (hne : chunks ≠ []) (hls : ∀ chunk ∈ chunks, AtLineEnd chunk.toList)
    (hjoin : String.join chunks = text) :
    ∃ out s s', handle (Engine.ofAllowance allowance) text r = .ok out s ∧
      Feeds (Engine.ofAllowance allowance) r chunks out s' ∧ s.AgreesOff places s' ∧
      s.pending = "" := by
  obtain ⟨r', hconnect, hopens⟩ := hr.connect_ok
  obtain ⟨id, hid⟩ := hopens.connection
  have hempty : r'.pending = "" := hopens.pending.trans hpending
  have hready : r'.LogsReady := hopens.reachable.logsReady
  have hself : { r' with pending := "" } = r' := by rw [← hempty]
  have hread' : Datum.readAll (r'.pending ++ text) = .ok forms := by
    rwa [hempty, String.empty_append]
  have hnil : AtLineEnd r'.pending.toList := by
    rw [hempty]
    exact .nil
  obtain ⟨out, s, s', hanswers, hfeeds, hagree, hrest⟩ :=
    feeds_agree (Engine.moves_ofAllowance allowance) r' hready hid
      (hself ▸ ⟨rfl, .refl _⟩) (.inl hempty) hnil hls (hjoin ▸ hread') (hs r' hconnect)
  refine ⟨out, s, s', ?_, ?_, hagree, ?_⟩
  · rw [handle_forms hconnect hread', hself, hempty, String.empty_append]
    exact hanswers
  · obtain ⟨chunk, rest, rfl⟩ := List.exists_cons_of_ne_nil hne
    exact hfeeds.of_connect hconnect (connect_of_some hid)
  · rw [hrest, hempty]

/-- Without a log there is nothing to leave out. -/
theorem settles_of_run {request : String} {form : Datum} {rest : List Datum} {r : Repl}
    (hends : ((evalForm g form).run' r.machine).isSome = true)
    (hlog : ∀ id ∈ r.connection,
      (((evalForm g form).after r.machine).connections.getD id default).logFile = none)
    (hrest : Settles g (fun _ => False) request rest ((answer g request form).after r)) :
    Settles g (fun _ => False) request (form :: rest) r := by
  refine ⟨?_, ?_, ?_, ?_⟩
  · intro stop n h
    unfold EStateM.run' EStateM.run at hends
    rw [h] at hends
    cases hends
  · intro m' hm answer n h
    obtain rfl := hm.eq_of_empty
    exact ⟨n, h, .refl n⟩
  · intro answer m h id hid path hpath
    have hnone := hlog id hid
    rw [Run.after_of_ok h, hpath] at hnone
    cases hnone
  · intro text r' h
    rwa [Serving.after_of_ok h] at hrest

theorem handle_chunks_idle : ∃ out s s',
    handle (Engine.ofAllowance 20) "(define x\n 1)\nx\n" idle = .ok out s ∧
      Feeds (Engine.ofAllowance 20) idle ["(define x\n", " 1)\nx\n"] out s' ∧
      s.AgreesOff (fun _ => False) s' ∧ s.pending = "" := by
  have hread : Datum.readAll "(define x\n 1)\nx\n" =
      .ok [.list [.sym "define", .sym "x", .int 1], .sym "x"] := by
    have htokens : (Lexed.ofText "(define x\n 1)\nx\n".toList).tokens =
        [Token.listOpen, ⟨.word, "define".toList⟩, ⟨.word, ['x']⟩, ⟨.word, ['1']⟩, Token.close,
          ⟨.word, ['x']⟩] := by
      decide +kernel
    have hfailure : (Lexed.ofText "(define x\n 1)\nx\n".toList).failure = none := by
      decide +kernel
    rw [Datum.readAll_of_run (by rw [htokens]; rfl), hfailure]
    rfl
  have hsettles : ∀ r', connect idle = .ok () r' → Settles (Engine.ofAllowance 20)
      (fun _ => False) "(define x\n 1)\nx\n"
      [.list [.sym "define", .sym "x", .int 1], .sym "x"] r' := by
    intro r' h
    have hconnection : idle.connection = some 0 := by decide +kernel
    rw [connect_of_some hconnection] at h
    cases h
    exact settles_of_run (by decide +kernel) (by decide +kernel)
      (settles_of_run (by decide +kernel) (by decide +kernel) trivial)
  exact handle_chunks reachable_idle (by decide +kernel) hread hsettles (by decide) (by decide)
    (by decide)

/-- A form that loads the log sees the request of the form before it, and so whether the two came
together. -/
theorem handle_chunks_loading_log :
    ∃ r : Repl, r.Reachable ∧ r.pending = "" ∧
      (Datum.readAll "(geiser:start-logging \"y\")\n(f \"y\")\n").isOk = true ∧
      (handle (Engine.ofAllowance 20) "(geiser:start-logging \"y\")\n(f \"y\")\n").run' r =
        some "#t\n\ny\n" ∧
      (do
        let here ← handle (Engine.ofAllowance 20) "(geiser:start-logging \"y\")\n"
        let there ← handle (Engine.ofAllowance 20) "(f \"y\")\n"
        return here ++ there : Serving String).run' r = some "#t\n\n\n" := by
  refine ⟨(handle (Engine.ofAllowance 20) "(define (f p) (set! f display) (load p))").after idle,
    .handle 20 _ reachable_idle, ?_, ?_, ?_, ?_⟩ <;> decide +kernel

end Repl

end LiveScheme
