import LiveScheme.Proofs.Machine.Brackets
import LiveScheme.Proofs.Repl.Answer

/-!
# A server and its console

Everything that a form prints while a server answers it ends up in the answer. The book-keeping
around the answers has no output at all, so the console of the machine is after every text what it
was before, also when a form exits in the middle of it, and so it is after a whole connection.
-/

namespace LiveScheme

namespace Run

theorem preserves_appendTo (path text : String) : Preserves (·.console) (appendTo path text) := by
  intro m
  by_cases hz : path.toList.contains '\x00' = true
  · obtain ⟨f, hf⟩ := appendTo_of_not text m (.inl hz)
    rw [hf]
  · rw [appendTo_of_noZero text m (by simpa using hz)]
    cases m.disk.append path text <;> rfl

theorem preserves_modifyConnection (id : Nat) (f : Connection → Connection) :
    Preserves (·.console) (modifyConnection id f) := .modify fun _ => rfl

theorem preserves_startLogging (id : Nat) (path : String) :
    Preserves (·.console) (startLogging id path) :=
  (preserves_modifyConnection id _).bind fun _ => (preserves_appendTo path "").bind fun _ =>
    preserves_modifyConnection id _

theorem preserves_openConnection (loadPath : List String) (logFile : Option String) :
    Preserves (·.console) (openConnection loadPath logFile) := by
  refine .bind (.modifyGet fun _ => rfl) fun id => ?_
  cases logFile with
  | none => exact .bind (.pure ()) fun _ => .pure id
  | some path =>
    dsimp only
    split
    · exact .bind (.pure ()) fun _ => .pure id
    · exact (preserves_startLogging id path).bind fun _ => .pure id

theorem preserves_bindServices (id : Nat) (services : List Service) :
    Preserves (·.console) (bindServices id services) := by
  induction services with
  | nil => exact .pure ()
  | cons service rest ih =>
    exact .bind (.modify fun _ => rfl) fun _ => .bind (.modify fun _ => rfl) fun _ => ih

theorem preserves_logExchange (id : Nat) (request reply : String) :
    Preserves (·.console) (logExchange id request reply) := by
  refine .bind (.bind .get fun _ => .pure _) fun c => ?_
  cases c.logFile with
  | none => exact .pure ()
  | some path => exact preserves_appendTo path _

theorem preserves_ofDatum (d : Datum) : Preserves (·.console) (ofDatum d) := by
  intro m
  obtain ⟨v, n, h⟩ := ofDatum_ok d m
  rw [h]

end Run

namespace Serving

theorem preserves_onMachine {α γ : Type} {part : Machine → γ} {x : Run α} (h : Preserves part x) :
    Preserves (fun r => part r.machine) (Repl.onMachine x) := by
  intro r
  unfold Repl.onMachine
  cases hx : x r.machine with
  | ok a m => exact h.of_ok hx
  | error stop m => exact h.of_error hx

theorem after_of_preserves {α γ : Type} {part : Repl → γ} {x : Serving α} (h : Preserves part x)
    (r : Repl) : part (x.after r) = part r := by
  unfold after
  cases hx : x r with
  | ok a r' => exact h.of_ok hx
  | error stop r' => exact h.of_error hx

end Serving

namespace Repl

open Run Serving

variable {g : Engine}

theorem preserves_connect : Preserves (·.machine.console) connect := by
  refine .bind .get fun r => ?_
  cases r.connection with
  | some id => exact .pure ()
  | none =>
    have hopen : Preserves (·.console) (do
        let id ← openConnection r.loadPath r.logFile
        installServices id
        return id) :=
      (preserves_openConnection _ _).bind fun id =>
        (preserves_bindServices id Service.all).bind fun _ => .pure id
    exact (preserves_onMachine hopen).bind fun id => .modify fun _ => rfl

theorem preserves_respond (request text : String) :
    Preserves (·.machine.console) (respond request text) := by
  refine .bind .get fun r => ?_
  cases r.connection with
  | none => exact .bind (.pure ()) fun _ => .pure text
  | some id =>
    exact (preserves_onMachine (preserves_logExchange id request text)).bind fun _ => .pure text

theorem preserves_evalForm (hg : g.Moves) (form : Datum) :
    Preserves (·.console) (evalForm g form) := by
  refine (preserves_ofDatum form).bind fun e => .bind .get fun m => ?_
  refine (preserves_capturing (hg.eval e (.ofModule m.current))).bind ?_
  rintro ⟨outcome, printed⟩
  cases outcome with
  | ok v => exact .pure _
  | error stop =>
    dsimp only
    cases Reply.messageOf? stop with
    | some message => exact (preserves_ofDatum _).bind fun _ => .pure _
    | none => exact .throw stop

theorem preserves_answers (hg : g.Moves) (request : String) (forms : List Datum) :
    Preserves (·.machine.console) (answers g request forms) := by
  induction forms with
  | nil => exact .pure ""
  | cons form rest ih =>
    have hanswer : Preserves (·.machine.console) (answer g request form) :=
      (preserves_onMachine (preserves_evalForm hg form)).bind fun _ =>
        .bind (.bind .get fun _ => preserves_respond _ _) fun _ => .pure _
    exact hanswer.bind fun _ => ih.bind fun _ => .pure _

theorem preserves_handle (hg : g.Moves) (text : String) :
    Preserves (·.machine.console) (handle g text) := by
  refine preserves_connect.bind fun _ => .bind .get fun r => .bind (.modify fun _ => rfl) fun _ => ?_
  split
  · exact .pure ""
  · exact .throw _
  · exact .bind (.modify fun _ => rfl) fun _ => preserves_respond _ _
  · exact .bind (.modify fun _ => rfl) fun _ => preserves_answers hg _ _

theorem preserves_disconnect : Preserves (·.machine.console) disconnect := by
  refine .bind .get fun r => ?_
  cases r.connection with
  | none => exact .modify fun _ => rfl
  | some id =>
    exact (preserves_onMachine (preserves_modifyConnection id _)).bind fun _ =>
      .modify fun _ => rfl

/-- A connection may take any number of lines, and may end by an exit in one of them. -/
theorem preserves_serveLines (hg : g.Moves) (interactive : Bool) (written : String)
    (lines : List (List Char)) :
    Preserves (·.machine.console) fun r => (serveLines g interactive written lines r).2 := by
  induction lines generalizing written with
  | nil => exact preserves_disconnect
  | cons line rest ih =>
    intro r
    have hhandle := preserves_handle hg (String.ofList line)
    dsimp only
    rw [serveLines]
    cases hline : handle g (String.ofList line) r with
    | ok text r' =>
      have hsame : r'.machine.console = r.machine.console := hhandle.of_ok hline
      rw [← hsame]
      exact ih _ r'
    | error stop r' =>
      have hsame : r'.machine.console = r.machine.console := hhandle.of_error hline
      rw [← hsame]
      dsimp only
      cases hlast : disconnect r' with
      | ok _ r'' => exact preserves_disconnect.of_ok hlast
      | error stop' r'' => exact preserves_disconnect.of_error hlast

end Repl

/-- Whatever a text makes a server do, both ports and everything printed to them are afterwards what
they were, and so are the captures that were open; and whatever a module form or a file does, the
module that was current is current again. -/
theorem Repl.restores (allowance : Nat) :
    (∀ (text : String) (r : Repl),
      ((handle (Engine.ofAllowance allowance) text).after r).machine.console =
        r.machine.console) ∧
    (∀ (f : SpecialForm), f.makesModule → ∀ (m : Machine) (s : Scope) (head : Value),
      Run.keyword? head s m = .ok (some (.form f)) m → ∀ (tag : Identity) (args : List Value),
      (((Engine.ofAllowance allowance).eval (.list tag (head :: args)) s).after m).current =
        m.current) ∧
    (∀ (m : Machine) (path : String) (home : Option Nat),
      (((Engine.ofAllowance allowance).load path home).after m).current = m.current) ∧
    (∀ (m : Machine) (s : Scope) (args : List Value),
      (((Engine.ofAllowance allowance).call (.primitive (.builtin .load)) s args).after m).current =
        m.current ∧
      (((Engine.ofAllowance allowance).apply (.primitive (.builtin .load)) args).after m).current =
        m.current) := by
  refine ⟨fun text r => ?_, fun f hf m s head hhead tag args => ?_, fun m path home => ?_,
    fun m s args => ⟨?_, ?_⟩⟩
  · exact Serving.after_of_preserves
      (preserves_handle (Engine.moves_ofAllowance allowance) text) r
  · exact Engine.current_eval_makesModule hf hhead tag args
  · exact Run.after_of_preserves (Engine.preserves_load path home) m
  · exact Run.after_of_preserves (Engine.preserves_call_load s args) m
  · exact Run.after_of_preserves (Engine.preserves_apply_load args) m

/-- A module whose body selects another one and then fails. -/
theorem Repl.restores_selecting :
    Run.keyword? (.sym "define-module") (.ofModule Machine.defaultId)
        (Machine.initial "2.10" true (.ofFiles [])) =
      .ok (some (.form .defineModule)) (Machine.initial "2.10" true (.ofFiles [])) ∧
    (((Engine.ofAllowance 9).eval
        (.list (.fresh 0) [.sym "define-module", .sym "m",
          .list (.fresh 1) [.sym "select-module", .sym "SCHEME"], .sym "unbound"])
        (.ofModule Machine.defaultId)).after
      (Machine.initial "2.10" true (.ofFiles []))).current = Machine.defaultId := by
  have hhead : Run.keyword? (.sym "define-module") (.ofModule Machine.defaultId)
      (Machine.initial "2.10" true (.ofFiles [])) =
      .ok (some (.form .defineModule)) (Machine.initial "2.10" true (.ofFiles [])) := by
    rfl
  exact ⟨hhead, (Repl.restores 9).2.1 _ (.inl rfl) _ _ _ hhead _ _⟩

end LiveScheme
