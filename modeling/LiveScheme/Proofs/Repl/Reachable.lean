import LiveScheme.Proofs.Machine.Evaluation
import LiveScheme.Proofs.Machine.Invariants
import LiveScheme.Repl.Basic

/-!
# Reachable servers

A server is reachable when it was started on a fresh machine and has since only taken input, well or
badly formed, dropped input, and closed or opened its connection. Its machine has then become what
it is by known changes, so its logs can be written to: neither opening a connection nor logging an
exchange ever fails on a reachable server.
-/

namespace LiveScheme

namespace Repl

/-- One server has turned into another: its machine has moved on, its settings are the same. -/
structure Follows (r r' : Repl) : Prop where
  machine : r.machine.Becomes r'.machine
  loadPath : r'.loadPath = r.loadPath
  logFile : r'.logFile = r.logFile
  promptText : r'.promptText = r.promptText

namespace Follows

theorem refl (r : Repl) : r.Follows r := ⟨.refl _, rfl, rfl, rfl⟩

theorem trans {r r' r'' : Repl} (h : r.Follows r') (h' : r'.Follows r'') : r.Follows r'' :=
  ⟨h.machine.trans h'.machine, h'.loadPath.trans h.loadPath, h'.logFile.trans h.logFile,
    h'.promptText.trans h.promptText⟩

end Follows

end Repl

namespace Serving

variable {α β : Type}

/-- The server that is left, by whatever outcome. -/
def after (x : Serving α) (r : Repl) : Repl :=
  match x r with
  | .ok _ r' | .error _ r' => r'

def Moves (x : Serving α) : Prop := ∀ r : Repl, r.Follows (x.after r)

theorem after_of_ok {x : Serving α} {a : α} {r r' : Repl} (h : x r = .ok a r') :
    x.after r = r' := by
  rw [after, h]

theorem after_of_error {x : Serving α} {stop : Stop} {r r' : Repl} (h : x r = .error stop r') :
    x.after r = r' := by
  rw [after, h]

namespace Moves

theorem pure (a : α) : Moves (Pure.pure a) := fun r => .refl r

theorem throw (stop : Stop) : Moves (throw stop : Serving α) := fun r => .refl r

theorem get : Moves get := fun r => .refl r

theorem bind {x : Serving α} {f : α → Serving β} (hx : x.Moves) (hf : ∀ a, (f a).Moves) :
    Moves (x >>= f) := by
  intro r
  have hr := hx r
  cases h : x r with
  | error stop r' =>
    rw [after_of_error h] at hr
    rwa [after_of_error (bind_of_error h)]
  | ok a r' =>
    rw [after_of_ok h] at hr
    rw [after, bind_of_ok h]
    exact hr.trans (hf a r')

theorem onMachine {x : Run α} (hx : x.Moves) : (Repl.onMachine x).Moves := by
  intro r
  have hm := hx r.machine
  unfold Run.after at hm
  unfold after Repl.onMachine
  cases h : x r.machine <;> rw [h] at hm <;> exact ⟨hm, rfl, rfl, rfl⟩

/-- Neither the connection nor the pending input is a setting. -/
theorem keeping {f : Repl → Repl} (h : ∀ r : Repl, r.Follows (f r)) : Moves (modify f) := h

end Moves

end Serving

namespace Repl

open Serving

variable {g : Engine}

theorem onMachine_of_ok {α : Type} {x : Run α} {r : Repl} {a : α} {m : Machine}
    (h : x r.machine = .ok a m) : onMachine x r = .ok a { r with machine := m } := by
  rw [onMachine, h]

theorem onMachine_of_error {α : Type} {x : Run α} {r : Repl} {stop : Stop} {m : Machine}
    (h : x r.machine = .error stop m) :
    onMachine x r = .error stop { r with machine := m } := by
  rw [onMachine, h]

theorem moves_evalForm (hg : g.Moves) (form : Datum) : (evalForm g form).Moves := by
  refine (Run.Moves.ofDatum form).bind fun e => Run.Moves.get.bind fun m => ?_
  refine (Run.Moves.capturing (hg.eval e _)).bind ?_
  rintro ⟨outcome, printed⟩
  dsimp only
  split
  · exact .pure _
  split
  · exact (Reply.moves_value _).bind fun _ => .pure _
  · exact .throw _

theorem moves_connect : connect.Moves := by
  refine Moves.get.bind fun r => ?_
  split
  · exact .pure ()
  · refine (Moves.onMachine ?_).bind fun id => .keeping fun r => ⟨.refl _, rfl, rfl, rfl⟩
    exact (Run.Moves.openConnection _ _).bind fun id =>
      (Run.Moves.bindServices _ _).bind fun _ => .pure id

theorem moves_disconnect : disconnect.Moves := by
  refine Moves.get.bind fun r => ?_
  split
  · exact (Moves.onMachine (Run.Moves.closeLog _)).bind fun _ =>
      .keeping fun r => ⟨.refl _, rfl, rfl, rfl⟩
  · exact .keeping fun r => ⟨.refl _, rfl, rfl, rfl⟩

theorem moves_respond (request text : String) : (respond request text).Moves := by
  refine Moves.get.bind fun r => ?_
  split
  · exact (Moves.onMachine (Run.Moves.logExchange _ _ _)).bind fun _ => .pure _
  · exact .pure _

theorem moves_reply (request : String) (values : List Value) : (reply request values).Moves :=
  Moves.get.bind fun _ => moves_respond _ _

theorem moves_answer (hg : g.Moves) (request : String) (form : Datum) :
    (answer g request form).Moves :=
  (Moves.onMachine (moves_evalForm hg form)).bind fun _ =>
    (moves_reply _ _).bind fun _ => .pure _

theorem moves_answers (hg : g.Moves) (request : String) (forms : List Datum) :
    (answers g request forms).Moves := by
  induction forms with
  | nil => exact .pure ""
  | cons form rest ih =>
    exact (moves_answer hg request form).bind fun _ => ih.bind fun _ => .pure _

theorem moves_handle (hg : g.Moves) (text : String) : (handle g text).Moves := by
  have hpending : ∀ text, Moves (modify fun r : Repl => { r with pending := text }) := fun _ =>
    .keeping fun r => ⟨.refl _, rfl, rfl, rfl⟩
  refine moves_connect.bind fun _ => Moves.get.bind fun r => (hpending _).bind fun _ => ?_
  split
  · exact .pure ""
  · exact .throw _
  · exact (hpending "").bind fun _ => moves_respond _ _
  · exact (hpending "").bind fun _ => moves_answers hg _ _

/-- Servers that have been started and used. -/
inductive Reachable : Repl → Prop
  | start {version promptText : String} {disk : Disk} {machine : Machine} {loadPath : List String}
    {logFile : Option String} {r : Repl} : Machine.fresh version disk = .ok machine →
    Repl.start machine loadPath logFile promptText = .ok r → Reachable r
  | handle {r : Repl} (allowance : Nat) (text : String) : Reachable r →
    Reachable ((Repl.handle (Engine.ofAllowance allowance) text).after r)
  | discard {r : Repl} : Reachable r → Reachable { r with pending := "" }
  | disconnect {r : Repl} : Reachable r → Reachable (Repl.disconnect.after r)
  | connect {r : Repl} : Reachable r → Reachable (Repl.connect.after r)

/-- Every log of the machine can be written to, and so can the one that a new connection opens. -/
structure LogsReady (r : Repl) : Prop where
  machine : r.machine.LogsReady
  logFile : ∀ path, r.logFile = some path → path.isEmpty = false → r.machine.disk.Holds path

theorem Follows.logsReady {r r' : Repl} (h : r.Follows r') (hr : r.LogsReady) : r'.LogsReady where
  machine := h.machine.logsReady hr.machine
  logFile path hpath hne :=
    (hr.logFile path (h.logFile ▸ hpath) hne).mono h.machine.grows

theorem startLogging_of_holds {m : Machine} {path : String} (h : m.disk.Holds path) (id : Nat) :
    ∃ m', Run.startLogging id path m = .ok () m' := by
  obtain ⟨disk, hd⟩ := h.append ""
  have hclose : Run.closeLog id m = .ok () ((Run.closeLog id).after m) := rfl
  have happend := Run.appendTo_of_ok (m := (Run.closeLog id).after m) h.noZero hd
  unfold Run.startLogging
  rw [bind_of_ok hclose, bind_of_ok happend]
  exact ⟨_, rfl⟩

theorem holds_of_startLogging {id : Nat} {path : String} {m m' : Machine}
    (h : Run.startLogging id path m = .ok () m') : m'.disk.Holds path := by
  have hclose : Run.closeLog id m = .ok () ((Run.closeLog id).after m) := rfl
  unfold Run.startLogging at h
  rw [bind_of_ok hclose] at h
  by_cases hz : path.toList.contains '\x00' = true
  · obtain ⟨f, hf⟩ := Run.appendTo_of_not "" ((Run.closeLog id).after m) (.inl hz)
    rw [bind_of_error hf] at h
    cases h
  cases hd : m.disk.append path "" with
  | error problem =>
    obtain ⟨f, hf⟩ := Run.appendTo_of_not "" ((Run.closeLog id).after m) (.inr ⟨problem, hd⟩)
    rw [bind_of_error hf] at h
    cases h
  | ok disk =>
    have hz' : path.toList.contains '\x00' = false := by simpa using hz
    rw [bind_of_ok (Run.appendTo_of_ok (m := (Run.closeLog id).after m) hz' hd)] at h
    cases h
    exact Disk.holds_of_append hz' hd

theorem bindServices_ok (id : Nat) (services : List Service) (m : Machine) :
    ∃ m', Run.bindServices id services m = .ok () m' := by
  induction services generalizing m with
  | nil => exact ⟨m, rfl⟩
  | cons service rest ih =>
    obtain ⟨m', h⟩ := ih (((do
      Run.define service.name (.primitive (.service id service)) (.ofModule Machine.schemeId)
      Run.exportNames Machine.schemeId [service.name]) : Run Unit).after m)
    exact ⟨m', h⟩

/-- The log that a connection is to have, if any. -/
def wantsLog (r : Repl) (path : String) : Prop := r.logFile = some path ∧ path.isEmpty = false

theorem connect_of_some {r : Repl} {id : Nat} (h : r.connection = some id) :
    connect r = .ok () r := by
  have hget : (get : Serving Repl) r = .ok r r := rfl
  unfold connect
  rw [bind_of_ok hget, h]
  rfl

theorem connect_of_none {r : Repl} (h : r.connection = none) :
    connect r = match Run.openConnection r.loadPath r.logFile r.machine with
      | .ok id m =>
        .ok () { r with machine := (Run.installServices id).after m, connection := some id }
      | .error stop m => .error stop { r with machine := m } := by
  have hget : (get : Serving Repl) r = .ok r r := rfl
  unfold connect
  rw [bind_of_ok hget, h]
  change (onMachine _ >>= fun id => modify _) r = _
  cases hopen : Run.openConnection r.loadPath r.logFile r.machine with
  | ok id m =>
    obtain ⟨m', hbind⟩ := bindServices_ok id Service.all m
    have hinstall : Run.installServices id m = .ok () m' := hbind
    have honMachine : onMachine (Run.openConnection r.loadPath r.logFile >>= fun id =>
        Run.installServices id >>= fun _ => pure id) r = .ok id { r with machine := m' } :=
      onMachine_of_ok ((bind_of_ok hopen).trans (bind_of_ok hinstall))
    rw [bind_of_ok honMachine]
    dsimp only
    rw [Run.after_of_ok hinstall]
    rfl
  | error stop m =>
    have honMachine : onMachine (Run.openConnection r.loadPath r.logFile >>= fun id =>
        Run.installServices id >>= fun _ => pure id) r = .error stop { r with machine := m } :=
      onMachine_of_error (bind_of_error hopen)
    rw [bind_of_error honMachine, h]

/-- Opening a connection begins its log, if it is to have one. -/
theorem openConnection_of_wantsLog {r : Repl} {path : String} (h : r.wantsLog path) (m : Machine) :
    Run.openConnection r.loadPath r.logFile m =
      (Run.startLogging m.connections.size path >>= fun _ => pure m.connections.size)
        { m with connections := m.connections.push ⟨r.loadPath, none⟩ } := by
  unfold Run.openConnection
  rw [h.1]
  change (if path.isEmpty = true then _ else _ : Run Nat) _ = _
  rw [h.2]
  rfl

theorem openConnection_of_not_wantsLog {r : Repl} (h : ∀ path, ¬ r.wantsLog path) (m : Machine) :
    Run.openConnection r.loadPath r.logFile m = .ok m.connections.size
      { m with connections := m.connections.push ⟨r.loadPath, none⟩ } := by
  unfold Run.openConnection
  cases hlog : r.logFile with
  | none => rfl
  | some path =>
    have hempty : path.isEmpty = true := by
      cases hempty : path.isEmpty with
      | true => rfl
      | false => exact absurd ⟨hlog, hempty⟩ (h path)
    change (if path.isEmpty = true then _ else _ : Run Nat) _ = _
    rw [hempty]
    rfl

theorem openConnection_ok {r : Repl}
    (hr : ∀ path, r.wantsLog path → r.machine.disk.Holds path) :
    ∃ id m, Run.openConnection r.loadPath r.logFile r.machine = .ok id m := by
  by_cases h : ∃ path, r.wantsLog path
  · obtain ⟨path, hpath⟩ := h
    rw [openConnection_of_wantsLog hpath]
    obtain ⟨m, hm⟩ := startLogging_of_holds
      (m := { r.machine with connections := r.machine.connections.push ⟨r.loadPath, none⟩ })
      (hr path hpath) r.machine.connections.size
    rw [bind_of_ok hm]
    exact ⟨_, _, rfl⟩
  · rw [openConnection_of_not_wantsLog (not_exists.mp h)]
    exact ⟨_, _, rfl⟩

theorem holds_of_openConnection {r : Repl} {id : Nat} {m : Machine} {path : String}
    (h : Run.openConnection r.loadPath r.logFile r.machine = .ok id m) (hpath : r.wantsLog path) :
    m.disk.Holds path := by
  rw [openConnection_of_wantsLog hpath] at h
  cases hstart : Run.startLogging r.machine.connections.size path
      { r.machine with connections := r.machine.connections.push ⟨r.loadPath, none⟩ } with
  | error stop m => rw [bind_of_error hstart] at h; cases h
  | ok a m =>
    rw [bind_of_ok hstart] at h
    cases h
    exact holds_of_startLogging hstart

/-- A connection can be opened when its log can be written to. -/
theorem connect_ok {r : Repl} (hr : ∀ path, r.wantsLog path → r.machine.disk.Holds path) :
    ∃ r', connect r = .ok () r' ∧ r'.connection.isSome = true ∧ r'.pending = r.pending := by
  cases hc : r.connection with
  | some id => exact ⟨r, connect_of_some hc, by rw [hc]; rfl, rfl⟩
  | none =>
    obtain ⟨id, m, hopen⟩ := openConnection_ok hr
    rw [connect_of_none hc, hopen]
    exact ⟨_, rfl, rfl, rfl⟩

theorem holds_of_connect {r r' : Repl} (hc : r.connection = none) (h : connect r = .ok () r')
    {path : String} (hpath : r.wantsLog path) : r'.machine.disk.Holds path := by
  rw [connect_of_none hc] at h
  cases hopen : Run.openConnection r.loadPath r.logFile r.machine with
  | error stop m => rw [hopen] at h; cases h
  | ok id m =>
    rw [hopen] at h
    cases h
    have hinstall := Run.Moves.bindServices id Service.all m
    exact (holds_of_openConnection hopen hpath).mono hinstall.grows

theorem logsReady_start {machine : Machine} {loadPath : List String} {logFile : Option String}
    {promptText : String} {r : Repl} (hm : machine.LogsReady)
    (h : Repl.start machine loadPath logFile promptText = .ok r) : r.LogsReady := by
  unfold Repl.start at h
  split at h
  · next heq =>
    cases h
    have hfollows := moves_connect ⟨machine, loadPath, logFile, promptText, none, ""⟩
    rw [after_of_ok (x := connect) heq] at hfollows
    refine ⟨hfollows.machine.logsReady hm, fun path hpath hne => ?_⟩
    exact holds_of_connect rfl heq ⟨hfollows.logFile ▸ hpath, hne⟩
  · cases h

theorem logsReady_fresh {version : String} {disk : Disk} {machine : Machine}
    (h : Machine.fresh version disk = .ok machine) : machine.LogsReady := by
  have hnone : machine.connections = #[] := by
    unfold Machine.fresh at h
    cases hparse : Version.parse version with
    | error f => rw [hparse] at h; cases h
    | ok parts => rw [hparse] at h; cases h; rfl
  intro id path hpath
  rw [hnone] at hpath
  cases hpath

theorem Reachable.logsReady {r : Repl} (h : r.Reachable) : r.LogsReady := by
  induction h with
  | start hfresh hstart => exact logsReady_start (logsReady_fresh hfresh) hstart
  | handle allowance text _ ih =>
    exact (moves_handle (Engine.moves_ofAllowance allowance) text _).logsReady ih
  | discard _ ih => exact ⟨ih.machine, ih.logFile⟩
  | disconnect _ ih => exact (moves_disconnect _).logsReady ih
  | connect _ ih => exact (moves_connect _).logsReady ih

/-- The text that an exchange adds to a log. -/
def logged (request reply : String) : String :=
  Run.withoutFeeds request ++ "\n" ++ Run.withoutFeeds reply ++ "\n\n"

/-- The disk once the text is added to the log of a connection, if the connection has one. -/
def Logs (id : Nat) (text : String) (m : Machine) (disk : Disk) : Prop :=
  match (m.connections.getD id default).logFile with
  | some path => m.disk.append path text = .ok disk
  | none => disk = m.disk

/-- The log of a connection is a file that exists, so it can be added to. -/
theorem exists_logs {m : Machine} (hm : m.LogsReady) (id : Nat) (text : String) :
    ∃ disk, Logs id text m disk := by
  unfold Logs
  cases hpath : (m.connections.getD id default).logFile with
  | some path => exact (hm id path hpath).append text
  | none => exact ⟨m.disk, rfl⟩

theorem logExchange_of_logs {m : Machine} (hm : m.LogsReady) {id : Nat} {request reply : String}
    {disk : Disk} (h : Logs id (logged request reply) m disk) :
    Run.logExchange id request reply m = .ok () { m with disk } := by
  have hconn : Run.connection id m = .ok (m.connections.getD id default) m := rfl
  unfold Run.logExchange
  rw [bind_of_ok hconn]
  unfold Logs at h
  cases hpath : (m.connections.getD id default).logFile with
  | some path =>
    rw [hpath] at h
    exact Run.appendTo_of_ok (hm id path hpath).noZero h
  | none =>
    rw [hpath] at h
    subst h
    rfl

theorem respond_of_logs {r : Repl} (hr : r.LogsReady) {id : Nat} (hid : r.connection = some id)
    {request text : String} {disk : Disk} (h : Logs id (logged request text) r.machine disk) :
    respond request text r = .ok text { r with machine := { r.machine with disk } } := by
  have hget : (get : Serving Repl) r = .ok r r := rfl
  calc respond request text r
    _ = (onMachine (Run.logExchange id request text) >>= fun _ => pure text) r := by
      unfold respond
      rw [bind_of_ok hget, hid]
    _ = .ok text { r with machine := { r.machine with disk } } :=
      bind_of_ok (onMachine_of_ok (logExchange_of_logs hr.machine h))

theorem respond_of_none {r : Repl} (hid : r.connection = none) (request text : String) :
    respond request text r = .ok text r := by
  have hget : (get : Serving Repl) r = .ok r r := rfl
  unfold respond
  rw [bind_of_ok hget, hid]
  rfl

theorem respond_ok {r : Repl} (hr : r.LogsReady) (request text : String) :
    ∃ disk, respond request text r =
      .ok text { r with machine := { r.machine with disk } } := by
  obtain hid | ⟨id, hid⟩ := Option.eq_none_or_eq_some r.connection
  · exact ⟨r.machine.disk, respond_of_none hid request text⟩
  · obtain ⟨disk, h⟩ := exists_logs hr.machine id (logged request text)
    exact ⟨disk, respond_of_logs hr hid h⟩

theorem reply_eq_respond (request : String) (values : List Value) (r : Repl) :
    reply request values r = respond request (linesOf r.machine values) r := by
  have hget : (get : Serving Repl) r = .ok r r := rfl
  unfold reply
  rw [bind_of_ok hget]

theorem reply_ok {r : Repl} (hr : r.LogsReady) (request : String) (values : List Value) :
    ∃ disk, reply request values r =
      .ok (linesOf r.machine values) { r with machine := { r.machine with disk } } := by
  rw [reply_eq_respond]
  exact respond_ok hr request (linesOf r.machine values)

/-- Opening a connection keeps what is pending and the settings. -/
structure Opens (r opened : Repl) : Prop where
  reachable : opened.Reachable
  pending : opened.pending = r.pending
  promptText : opened.promptText = r.promptText
  connection : ∃ id, opened.connection = some id

theorem Opens.connect {r opened : Repl} (h : r.Opens opened) :
    Repl.connect opened = .ok () opened := by
  obtain ⟨id, hid⟩ := h.connection
  exact connect_of_some hid

/-- A reachable server can open a connection. -/
theorem Reachable.connect_ok {r : Repl} (hr : r.Reachable) :
    ∃ opened, Repl.connect r = .ok () opened ∧ r.Opens opened := by
  obtain ⟨opened, hconnect, hsome, hkept⟩ := Repl.connect_ok fun path hpath =>
    hr.logsReady.logFile path hpath.1 hpath.2
  have hreach := hr.connect
  have hfollows := moves_connect r
  rw [after_of_ok hconnect] at hreach hfollows
  exact ⟨opened, hconnect, hreach, hkept, hfollows.promptText,
    Option.isSome_iff_exists.mp hsome⟩

theorem Reachable.opens {r opened : Repl} (hr : r.Reachable)
    (hconnect : Repl.connect r = .ok () opened) : r.Opens opened := by
  obtain ⟨opened', hconnect', hopens⟩ := hr.connect_ok
  rw [hconnect] at hconnect'
  cases hconnect'
  exact hopens

theorem Reachable.handled {n : Nat} {r r' : Repl} {text out : String} (hr : r.Reachable)
    (h : Repl.handle (Engine.ofAllowance n) text r = .ok out r') :
    r'.Reachable ∧ r'.promptText = r.promptText := by
  have hreach := hr.handle n text
  have hfollows := moves_handle (Engine.moves_ofAllowance n) text r
  rw [after_of_ok h] at hreach hfollows
  exact ⟨hreach, hfollows.promptText⟩

theorem isSome_toOption_fresh : (Machine.fresh "2.10" (.ofFiles [])).toOption.isSome := by
  decide +kernel

/-- A server that was just started, without files or a log. -/
def idle : Repl :=
  connect.after ⟨(Machine.fresh "2.10" (.ofFiles [])).toOption.get isSome_toOption_fresh, [], none,
    defaultPrompt, none, ""⟩

theorem reachable_idle : idle.Reachable := by
  have hget : ∀ {ε α : Type} (x : Except ε α) (h : x.toOption.isSome),
      x = .ok (x.toOption.get h) := by
    intro ε α x h
    cases x with
    | error e => cases h
    | ok a => rfl
  obtain ⟨r, hconnect, -⟩ := connect_ok (r := ⟨(Machine.fresh "2.10" (.ofFiles [])).toOption.get
    isSome_toOption_fresh, [], none, defaultPrompt, none, ""⟩) fun path hpath => by cases hpath.1
  have hstart : Repl.start ((Machine.fresh "2.10" (.ofFiles [])).toOption.get
      isSome_toOption_fresh) [] none defaultPrompt = .ok idle := by
    unfold idle start
    rw [after_of_ok hconnect, EStateM.run, hconnect]
  exact .start (hget _ isSome_toOption_fresh) hstart

end Repl

end LiveScheme
