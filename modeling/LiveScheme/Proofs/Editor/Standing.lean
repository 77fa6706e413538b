import LiveScheme.Editor.Assistant
import LiveScheme.Proofs.Editor.Exchange
import Mathlib.Data.List.Permutation

/-!
# Assistants in use

An assistant is started, told about documents, asked questions, and its server is sent requests, in
any order and with any outcome. Its server is started by itself and is only talked to in requests,
so between two of these it has nothing pending, whatever it has been told.
-/

namespace LiveScheme

namespace Session

open Dialogue

variable (n : Nat)

theorem keeps_command (verb : String) (args : List (Option String)) (cursor : Option Cursor) :
    Keeps Transport.Rests (command (Engine.ofAllowance n) verb args cursor) :=
  (keeps_ofFault _).bind fun _ => keeps_request n _

theorem keeps_start (logFile : Option String) :
    Keeps Transport.Rests (start (Engine.ofAllowance n) logFile) := by
  unfold start Command.handshake
  cases logFile.filter (!·.isEmpty) with
  | some path => exact (keeps_request n _).bind fun _ => .pure ()
  | none =>
    have hread : Datum.readAll "(newline)" = .ok [.list [.sym "newline"]] := by cbv
    exact fun t ht => (send_rests (fun f hf => by rw [hread] at hf; cases hf) ht).1

theorem keeps_checkVersion (least : String) :
    Keeps Transport.Rests (checkVersion (Engine.ofAllowance n) least) := by
  have hversion : Keeps Transport.Rests (version (Engine.ofAllowance n)) :=
    (keeps_request n _).bind fun _ => keeps_ofDecoded _
  refine hversion.bind fun reported => (keeps_ofFault _).bind fun found =>
    (keeps_ofFault _).bind fun need => ?_
  split
  · exact .throw _
  · exact .pure _

theorem keeps_loadFile (name : String) :
    Keeps Transport.Rests (loadFile (Engine.ofAllowance n) name) :=
  (keeps_command n _ _ _).bind fun _ => keeps_ofDecoded _

theorem keeps_completions (stem : String) :
    Keeps Transport.Rests (completions (Engine.ofAllowance n) stem) := by
  have heval : ∀ form home, Keeps Transport.Rests (eval (Engine.ofAllowance n) form home) :=
    fun form home => keeps_onProtocolError
      ((keeps_command n _ _ _).bind fun _ => keeps_ofDecoded _) fun _ => .pure _
  refine (heval _ none).bind fun reply => ?_
  split
  · exact .pure []
  · exact keeps_ofDecoded _

theorem keeps_moduleCompletions (stem : String) :
    Keeps Transport.Rests (moduleCompletions (Engine.ofAllowance n) stem) :=
  (keeps_command n _ _ _).bind fun _ => keeps_ofDecoded _

theorem keeps_autodoc (names : List String) (cursor : Option Cursor) :
    Keeps Transport.Rests (autodoc (Engine.ofAllowance n) names cursor) :=
  (keeps_command n _ _ _).bind fun _ => keeps_ofDecoded _

theorem keeps_symbolDocumentation (name : String) (home : Option String) :
    Keeps Transport.Rests (symbolDocumentation (Engine.ofAllowance n) name home) := by
  cases home with
  | none => exact (keeps_command n _ _ _).bind fun _ => keeps_ofDecoded _
  | some home =>
    exact (keeps_ofFault _).bind fun _ => Keeps.bind (.pure _) fun _ =>
      (keeps_command n _ _ _).bind fun _ => keeps_ofDecoded _

end Session

namespace Assistant

variable {α : Type} {g : Engine} {n : Nat} {a a' : Assistant} {t : Transport}

/-- The server of the session, if there is one, has nothing pending. -/
def Rests (a : Assistant) : Prop := ∀ t ∈ a.session, t.Rests

theorem keeps_modify {f : Assistant → Assistant} (h : ∀ a, (f a).session = a.session) :
    Keeps Rests (modify f) := fun a ha t ht => ha t (h a ▸ ht)

theorem keeps_ofFault (x : Except Fault α) : Keeps Rests (ofFault x) := by
  cases x with
  | ok v => exact .pure v
  | error f => exact .throw _

theorem keeps_onError {x : Assisting α} {otherwise : EditorError → Assisting α}
    (hx : Keeps Rests x) (hother : ∀ e, Keeps Rests (otherwise e)) :
    Keeps Rests (onError x otherwise) := by
  intro a ha
  have hr := hx a ha
  unfold leaves onError
  unfold leaves at hr
  cases h : x a with
  | ok v a' => rwa [h] at hr
  | error stop a' =>
    rw [h] at hr
    cases stop with
    | error e => exact hother e a' hr
    | _ => exact hr

/-- A dialogue changes nothing but the session. -/
theorem leaves_onTransport (t : Transport) (x : Dialogue α) (a : Assistant) :
    leaves (onTransport t x) a = { a with session := some (leaves x t) } := by
  unfold leaves onTransport
  cases x t <;> rfl

theorem exists_of_onTransport_ok {x : Dialogue α} {v : α} (h : onTransport t x a = .ok v a') :
    ∃ t', x t = .ok v t' := by
  unfold onTransport at h
  cases hx : x t with
  | ok w t' => rw [hx] at h; cases h; exact ⟨t', rfl⟩
  | error stop t' => rw [hx] at h; cases h

theorem rests_of_session (h : t.Rests) (a : Assistant) :
    Rests { a with session := some t } := fun _ ht => by
  cases ht
  exact h

theorem rests_onTransport {x : Dialogue α} (hx : Keeps Transport.Rests x) (ht : t.Rests)
    (a : Assistant) : (leaves (onTransport t x) a).Rests := by
  rw [leaves_onTransport]
  exact rests_of_session (hx t ht) a

theorem newServer_ok {settings : Settings} {disk : Disk} {server : Repl}
    (h : newServer settings disk = .ok server) : server.Reachable ∧ server.pending = "" := by
  unfold newServer at h
  cases hmachine : Machine.fresh settings.runtimeVersion disk with
  | error f => rw [hmachine] at h; cases h
  | ok machine =>
    rw [hmachine] at h
    change (Repl.start machine settings.loadPath none Repl.defaultPrompt).mapError
      Dialogue.editorStop = _ at h
    cases hstart : Repl.start machine settings.loadPath none Repl.defaultPrompt with
    | error stop => rw [hstart] at h; cases h
    | ok r =>
      rw [hstart] at h
      cases h
      exact ⟨.start hmachine hstart, Repl.pending_of_start hstart⟩

/-- The transport of the session, which is begun if there is none. -/
def contact (g : Engine) : Assisting Transport := do
  match (← get).session with
  | some t => return t
  | none => beginSession g

theorem get_bind (f : Assistant → Assisting α) (a : Assistant) : (get >>= f) a = f a a := rfl

theorem converse_eq (g : Engine) (x : Dialogue α) :
    converse g x = contact g >>= fun t => onTransport t x := by
  funext a
  rw [converse, contact, bind_assoc, get_bind, get_bind]
  cases a.session <;> rfl

theorem contact_of_some (g : Engine) (h : a.session = some t) : contact g a = .ok t a := by
  rw [contact, get_bind, h]
  rfl

theorem contact_of_none (g : Engine) (h : a.session = none) : contact g a = beginSession g a := by
  rw [contact, get_bind, h]

/-- What is said first in a session. -/
def greeting (g : Engine) (settings : Settings) : Dialogue Transport := do
  Session.start g settings.logFile
  let _ ← Session.checkVersion g settings.leastVersion
  get

theorem beginSession_of_error {stop : EditorStop} (g : Engine)
    (h : newServer a.settings a.disk = .error stop) : beginSession g a = .error stop a := by
  rw [beginSession, get_bind, h]
  rfl

theorem beginSession_of_ok {server : Repl} (g : Engine)
    (h : newServer a.settings a.disk = .ok server) :
    beginSession g a = onTransport (.loopback server []) (greeting g a.settings) a := by
  rw [beginSession, get_bind, h]
  rfl

theorem keeps_greeting (n : Nat) (settings : Settings) :
    Keeps Transport.Rests (greeting (Engine.ofAllowance n) settings) :=
  (Session.keeps_start n _).bind fun _ => (Session.keeps_checkVersion n _).bind fun _ => .get

/-- A session that begins is at rest, and it is what its beginning answers. -/
theorem beginSession_rests (n : Nat) (ha : a.Rests) :
    (leaves (beginSession (Engine.ofAllowance n)) a).Rests ∧
      ∀ t a', beginSession (Engine.ofAllowance n) a = .ok t a' → t.Rests := by
  unfold leaves
  cases hserver : newServer a.settings a.disk with
  | error e =>
    rw [beginSession_of_error _ hserver]
    exact ⟨ha, fun t a' h => by cases h⟩
  | ok server =>
    obtain ⟨hreachable, hpending⟩ := newServer_ok hserver
    have hrests : Transport.Rests (.loopback server []) := .loopback [] hreachable hpending
    rw [beginSession_of_ok _ hserver]
    refine ⟨rests_onTransport (keeps_greeting n _) hrests a, fun t a' h => ?_⟩
    have hleft := keeps_greeting n a.settings _ hrests
    obtain ⟨t', hdialogue⟩ := exists_of_onTransport_ok h
    rw [leaves_of_ok hdialogue] at hleft
    obtain ⟨_, t₁, -, hchecked⟩ := exists_of_bind_ok hdialogue
    obtain ⟨_, t₂, -, hget⟩ := exists_of_bind_ok hchecked
    cases hget
    exact hleft

theorem contact_rests (n : Nat) (ha : a.Rests) :
    (leaves (contact (Engine.ofAllowance n)) a).Rests ∧
      ∀ t a', contact (Engine.ofAllowance n) a = .ok t a' → t.Rests := by
  unfold leaves
  cases hsession : a.session with
  | some t =>
    rw [contact_of_some _ hsession]
    refine ⟨ha, ?_⟩
    rintro _ _ ⟨⟩
    exact ha t hsession
  | none =>
    rw [contact_of_none _ hsession]
    exact beginSession_rests n ha

theorem keeps_converse (n : Nat) {x : Dialogue α} (hx : Keeps Transport.Rests x) :
    Keeps Rests (converse (Engine.ofAllowance n) x) := by
  intro a ha
  obtain ⟨hleft, hcontact⟩ := contact_rests n ha
  rw [converse_eq]
  cases h : contact (Engine.ofAllowance n) a with
  | error stop a' =>
    rw [leaves_of_error h] at hleft
    rwa [leaves_of_error (bind_of_error h)]
  | ok t a' =>
    rw [leaves, bind_of_ok h]
    exact rests_onTransport hx (hcontact t a' h) a'

/-! ### Errands -/

theorem keeps_notify (notice : Notice) : Keeps Rests (notify notice) := keeps_modify fun _ => rfl

theorem keeps_update (uri text : String) : Keeps Rests (update uri text) :=
  Keeps.bind (keeps_modify fun _ => rfl) fun _ => keeps_notify _

theorem keeps_forget (uri : String) : Keeps Rests (forget uri) :=
  Keeps.bind (keeps_modify fun _ => rfl) fun _ => keeps_notify _

theorem keeps_saved (n : Nat) (uri : String) : Keeps Rests (saved (Engine.ofAllowance n) uri) := by
  unfold saved
  dsimp only
  split
  · exact .pure ()
  refine Keeps.bind (keeps_onError (Keeps.bind (keeps_converse n (Session.keeps_loadFile n _))
    fun reply => ?_) fun _ => .pure _) fun notices => Keeps.bind ?_ fun _ => .pure ()
  · cases reply <;> exact .pure _
  induction notices with
  | nil => exact .pure _
  | cons notice rest ih =>
    rw [List.forIn_cons]
    refine Keeps.bind ((keeps_notify notice).bind fun _ => .pure _) fun step => ?_
    cases step with
    | done _ => exact .pure _
    | yield _ => exact ih

theorem keeps_hover (n : Nat) (uri : String) (p : Buffer.Position) :
    Keeps Rests (hover (Engine.ofAllowance n) uri p) := by
  refine Keeps.bind (.bind .get fun _ => .pure _) fun d => ?_
  split
  · exact .pure none
  refine (keeps_ofFault _).bind fun found => ?_
  split
  · exact .pure none
  refine (keeps_onError (keeps_converse n (Session.keeps_symbolDocumentation n _ _))
    fun _ => .pure none).bind fun doc => ?_
  split
  · exact .pure none
  · exact (keeps_ofFault _).bind fun _ => .pure _

theorem keeps_completion (n : Nat) (uri : String) (p : Buffer.Position) :
    Keeps Rests (completion (Engine.ofAllowance n) uri p) := by
  refine Keeps.bind (.bind .get fun _ => .pure _) fun d => ?_
  split
  · exact .pure []
  dsimp only
  split
  · exact keeps_onError ((keeps_converse n (Session.keeps_moduleCompletions n _)).bind
      fun _ => .pure _) fun _ => .pure _
  · exact (keeps_onError ((keeps_converse n (Session.keeps_completions n _)).bind
      fun _ => .pure _) fun _ => .pure _).bind fun _ => .pure _

theorem keeps_signatureHelp (n : Nat) (uri : String) (p : Buffer.Position) :
    Keeps Rests (signatureHelp (Engine.ofAllowance n) uri p) := by
  refine Keeps.bind (.bind .get fun _ => .pure _) fun d => ?_
  split
  · exact .pure none
  split
  · exact .pure none
  refine (keeps_onError (keeps_converse n (Session.keeps_autodoc n _ _))
    fun _ => .pure []).bind fun entries => ?_
  split
  · exact .pure none
  · exact keeps_ofFault _

/-- What an editor does with an assistant. A request stands for everything else that its server can
be told. -/
inductive Errand
  | update (uri text : String)
  | forget (uri : String)
  | saved (uri : String)
  | hover (uri : String) (p : Buffer.Position)
  | completion (uri : String) (p : Buffer.Position)
  | signatureHelp (uri : String) (p : Buffer.Position)
  | request (text : String)

def Errand.perform (g : Engine) : Errand → Assisting Unit
  | .update uri text => Assistant.update uri text
  | .forget uri => Assistant.forget uri
  | .saved uri => Assistant.saved g uri
  | .hover uri p => do let _ ← Assistant.hover g uri p
  | .completion uri p => do let _ ← Assistant.completion g uri p
  | .signatureHelp uri p => do let _ ← Assistant.signatureHelp g uri p
  | .request text => do let _ ← converse g (Dialogue.request g text)

theorem Errand.keeps_perform (n : Nat) (e : Errand) :
    Keeps Rests (e.perform (Engine.ofAllowance n)) := by
  cases e with
  | update uri text => exact keeps_update uri text
  | forget uri => exact keeps_forget uri
  | saved uri => exact keeps_saved n uri
  | hover uri p => exact (keeps_hover n uri p).bind fun _ => .pure ()
  | completion uri p => exact (keeps_completion n uri p).bind fun _ => .pure ()
  | signatureHelp uri p => exact (keeps_signatureHelp n uri p).bind fun _ => .pure ()
  | request text =>
    exact (keeps_converse n (Dialogue.keeps_request n text)).bind fun _ => .pure ()

/-- Assistants that have been started and used. -/
inductive Reachable : Assistant → Prop
  | start (settings : Settings) (disk : Disk) : Reachable (start settings disk)
  | perform {a : Assistant} (n : Nat) (e : Errand) : Reachable a →
    Reachable (leaves (e.perform (Engine.ofAllowance n)) a)

/-- Nothing is pending at the server of an assistant. -/
theorem Reachable.rests (h : a.Reachable) : a.Rests := by
  induction h with
  | start settings disk => exact fun t ht => by cases ht
  | perform n e _ ih => exact e.keeps_perform n _ ih

end Assistant

end LiveScheme
