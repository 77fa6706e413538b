import LiveScheme.Proofs.Editor.Autodoc
import LiveScheme.Proofs.Editor.Streams
import LiveScheme.Proofs.Value.Bare
import LiveScheme.Proofs.Version.Numerals
import Mathlib.Data.List.Permutation

/-!
# The version gate

A session asks the runtime for its version and compares the numbers of the answer with those of the
version that it needs, as sequences. Its verdict depends on the two texts only: the version that was
reported, a refusal, or a fault when one of the texts has a digit in it that is no decimal one. A
server in this process, or a stream that carries the reply, always brings the session to the
verdict, provided that the reply arrives as it was sent.
-/

namespace LiveScheme

open Text

namespace Command

/-- The request for the version. -/
def versionDatum : Datum := .list [.sym "version"]

theorem readAll_versionText : Datum.readAll versionText = .ok [versionDatum] := by
  cbv

theorem readAll_versionText_feed : Datum.readAll (versionText ++ "\n") = .ok [versionDatum] := by
  cbv

/-- The runtime answers with the text of its version. -/
theorem evalForm_version {n : Nat} {m : Machine} (hm : m.Resolves "version" (.builtin .version)) :
    Repl.evalForm (Engine.ofAllowance (n + 2)) versionDatum m =
      .ok ([.str .versionText m.version], "") (m.skip 1) := by
  have hrequest : Run.ofDatum versionDatum m =
      .ok (.list (.fresh m.nextTag) [.sym "version"]) (m.skip 1) := rfl
  have hserves : (m.skip 1).beginCapture.Resolves "version" (.builtin .version) :=
    hm.congr rfl rfl rfl
  have hargs : (Engine.ofAllowance (n + 1)).evalAll (.ofModule m.current) []
      (m.skip 1).beginCapture = .ok [] (m.skip 1).beginCapture := rfl
  have heval := Engine.eval_primitive (Machine.resolvesIn_current.mpr hserves) (.fresh m.nextTag)
    hargs (v := .str .versionText m.version) rfl
  exact Repl.evalForm_of_ok hrequest heval

end Command

namespace Repl

/-- The server answers the request with its version as a text, and a blank line. -/
theorem handle_version {n : Nat} {r opened : Repl} (hr : r.Reachable) (hpending : r.pending = "")
    (hconnect : connect r = .ok () opened)
    (hm : opened.machine.Resolves "version" (.builtin .version)) :
    ∃ r', handle (Engine.ofAllowance (n + 2)) (Command.versionText ++ "\n") r =
      .ok ((Datum.str opened.machine.version).write ++ "\n\n") r' ∧ r'.pending = "" := by
  have hopens := hr.opens hconnect
  have hread : Datum.readAll (opened.pending ++ (Command.versionText ++ "\n")) =
      .ok [Command.versionDatum] := by
    rw [hopens.pending, hpending, String.empty_append]
    exact Command.readAll_versionText_feed
  obtain ⟨disk, hhandle⟩ := handle_form (Engine.moves_ofAllowance (n + 2)) hconnect
    hopens.reachable.logsReady hread (Command.evalForm_version hm)
  have hlines : linesOf (opened.machine.skip 1) [.str .versionText opened.machine.version] =
      (Datum.str opened.machine.version).write ++ "\n\n" := by
    have hwrite : (opened.machine.skip 1).write (.str .versionText opened.machine.version) =
        (Datum.str opened.machine.version).write := rfl
    rw [linesOf, List.map_singleton, hwrite]
    simp [String.append_assoc]
  rw [hlines, String.empty_append] at hhandle
  exact ⟨_, hhandle, rfl⟩

end Repl

theorem Datum.toList_write_str (text : String) :
    (Datum.str text).write.toList = Printer.writeText text.toList := String.toList_ofList

/-- A written text gives the text back. -/
theorem Decode.string_write (text : String) : Decode.string (Datum.str text).write = .ok text := by
  rw [string, parse_write (.str text trivial)]
  exact congrArg Except.ok (label_str text)

namespace Session

open Command Dialogue

/-- What the gate makes of the version that is reported and the one that is needed. -/
def verdict (reported least : String) : Decoded String :=
  match Version.parse reported, Version.parse least with
  | .ok found, .ok need =>
    if found < need then .error (.error (.unsupported reported least)) else .ok reported
  | .error f, _ | .ok _, .error f => .error (.fault f)

variable {g : Engine}

/-- Once the version is reported, the session ends with the verdict. -/
theorem checkVersion_of_request {reported least : String} {t t' : Transport}
    (h : request g versionText t = .ok (Datum.str reported).write t') :
    checkVersion g least t = ofDecoded (verdict reported least) t' := by
  have hversion : version g t = .ok reported t' := by
    rw [version, bind_of_ok h, Decode.string_write]
    rfl
  rw [checkVersion, bind_of_ok hversion, verdict]
  cases Version.parse reported with
  | error f => rfl
  | ok found =>
    cases Version.parse least with
    | error f => rfl
    | ok need =>
      have hfound : (ofFault (.ok found) : Dialogue (List Nat)) t' = .ok found t' := rfl
      have hneed : (ofFault (.ok need) : Dialogue (List Nat)) t' = .ok need t' := rfl
      rw [bind_of_ok hfound, bind_of_ok hneed]
      dsimp only
      by_cases hlt : found < need
      · rw [Version.order_eq_lt_iff.mpr hlt, if_pos hlt]
        rfl
      · have hne : (Version.order found need == .lt) = false := by
          rw [beq_eq_false_iff_ne]
          exact fun heq => hlt (Version.order_eq_lt_iff.mp heq)
        rw [hne, if_neg hlt]
        rfl

/-- A server in this process reports its version when the reply arrives as it was sent. -/
theorem checkVersion_loopback {n : Nat} {server opened : Repl} (hr : server.Reachable)
    (hpending : server.pending = "") (hconnect : Repl.connect server = .ok () opened)
    (hm : opened.machine.Resolves "version" (.builtin .version)) {queue : List (List Char)}
    (hqueue : Quiet queue) (hframed : Framed (Datum.str opened.machine.version).write)
    (least : String) : ∃ server', server'.Reachable ∧ server'.pending = "" ∧
      checkVersion (Engine.ofAllowance (n + 2)) least (.loopback server queue) =
        ofDecoded (verdict opened.machine.version least) (.loopback server' []) := by
  obtain ⟨server', hhandle, hempty⟩ := Repl.handle_version (n := n) hr hpending hconnect hm
  refine ⟨server', (hr.handled hhandle).1, hempty, checkVersion_of_request ?_⟩
  rw [request_of_readAll readAll_versionText, bind_of_ok (send_loopback hhandle hempty queue)]
  have hcan : (Transport.loopback server' (queue ++
    lines ((Datum.str opened.machine.version).write ++ "\n\n").toList)).CanRead := trivial
  exact readReply_ended hcan (by decide) (Datum.toList_write_str opened.machine.version) rfl hqueue
    hframed

/-- A reply on a line of its own, behind a prompt or with no prompt in it. -/
theorem checkVersion_streams {reported : String} {prompt : List Char} (hprompt : IsPrompt prompt)
    (hno : prompt ≠ [] ∨ NoPrompt ((Datum.str reported).write.toList ++ ['\n']))
    {front rest : List (List Char)} (hf : ∀ line ∈ front, Separates line) (sent least : String) :
    checkVersion g least (.streams (front ++ (prompt ++ ((Datum.str reported).write.toList ++
      ['\n'])) :: ['\n'] :: rest) sent true) =
        ofDecoded (verdict reported least) (.streams rest (sent ++ versionText ++ "\n") true) := by
  refine checkVersion_of_request ?_
  have hsend : ∀ incoming, send g versionText (.streams incoming sent true) =
      .ok () (.streams incoming (sent ++ versionText ++ "\n") true) := fun _ => rfl
  rw [request_of_readAll readAll_versionText, bind_of_ok (hsend _)]
  have hdrop : dropPrompt (prompt ++ ((Datum.str reported).write.toList ++ ['\n'])) =
      (Datum.str reported).write.toList ++ ['\n'] :=
    hno.elim (fun hne => hprompt.dropPrompt_of_ne hne _) hprompt.dropPrompt_append
  have hline : ∀ line ∈ [prompt ++ ((Datum.str reported).write.toList ++ ['\n'])],
      Carries line := by
    have hquote : isBlank '\x22' = false := by decide
    refine List.forall_mem_singleton.mpr ⟨by simp, ?_⟩
    rw [hdrop, Datum.toList_write_str]
    simp [Printer.writeText, allBlank, hquote]
  have hcan : (Transport.streams (front ++ (prompt ++ ((Datum.str reported).write.toList ++
    ['\n'])) :: ['\n'] :: rest) (sent ++ versionText ++ "\n") true).CanRead := rfl
  have hread := readReply_ok hcan rfl hf (List.cons_ne_nil _ _) hline (separates_feed (.inl rfl))
  rw [List.flatMap_singleton, hdrop, dropEnd_ended (by decide) (Datum.toList_write_str reported),
    Transport.withLines] at hread
  exact hread

/-- The gate: a version is parsed when all the digits that its parts begin with are decimal, and
then as the numbers that they write; numbers between dots are parsed as these numbers, unless what
stands behind them goes on with a digit. A session that has the version reported ends with the
verdict on the two texts: it returns the version when its numbers are not below those that are
needed, and refuses it when they are. So does a session with a server in this process, when the
reply arrives as it was sent (on one line and without a prompt at its start), and one whose stream
carries the reply. -/
theorem version_gate (g : Engine) (reported least : String) :
    (∀ (text : String) (ns : List Nat), Version.parse text = .ok ns ↔
      (∀ digits ∈ Version.numerals text, ∀ c ∈ digits, isDecimal c = true) ∧
        ns = (Version.numerals text).map Literal.numeral) ∧
    (∀ (ns : List Nat) (suffix : String),
      (∀ c ∈ suffix.toList.head?, isDigit c = false ∧ c ≠ '.') →
        (Version.parse (Version.written ns ++ suffix) = .ok ns ↔
          ∀ c ∈ (Version.continuation ns suffix.toList).head?, isDigit c = false)) ∧
    (∀ t t' : Transport, request g versionText t = .ok (Datum.str reported).write t' →
      checkVersion g least t = ofDecoded (verdict reported least) t') ∧
    (∀ (n : Nat) (server opened : Repl) (queue : List (List Char)),
      server.Reachable → server.pending = "" → Repl.connect server = .ok () opened →
      opened.machine.Resolves "version" (.builtin .version) →
      opened.machine.version = reported → Quiet queue → Framed (Datum.str reported).write →
        ∃ server', server'.Reachable ∧ server'.pending = "" ∧
          checkVersion (Engine.ofAllowance (n + 2)) least (.loopback server queue) =
            ofDecoded (verdict reported least) (.loopback server' [])) ∧
    (OnOneLine (Datum.str reported).write →
      (Framed (Datum.str reported).write ↔
        NoPrompt ((Datum.str reported).write.toList ++ ['\n']))) ∧
    (∀ (sent : String) (prompt : List Char) (front rest : List (List Char)),
      IsPrompt prompt → (∀ line ∈ front, Separates line) →
      (prompt ≠ [] ∨ NoPrompt ((Datum.str reported).write.toList ++ ['\n'])) →
        checkVersion g least (.streams (front ++ (prompt ++ ((Datum.str reported).write.toList ++
          ['\n'])) :: ['\n'] :: rest) sent true) =
            ofDecoded (verdict reported least)
              (.streams rest (sent ++ versionText ++ "\n") true)) := by
  refine ⟨fun text ns => Version.parse_ok_iff, fun ns suffix hs => Version.parse_written_iff ns hs,
    fun t t' h => checkVersion_of_request h, ?_,
    fun hline => framed_iff_noPrompt hline (by decide) (Datum.toList_write_str reported), ?_⟩
  · rintro n server opened queue hr hpending hconnect hm rfl hqueue hframed
    exact checkVersion_loopback hr hpending hconnect hm hqueue hframed least
  · intro sent prompt front rest hprompt hf hno
    exact checkVersion_streams hprompt hno hf sent least

/-- A superscript spoils a version, and a number behind a suffix is taken along. A new server of
version 2.10 is recent enough where 2.9 is needed, also over a stream, and too old where 3 is. -/
theorem version_gate_idle :
    (¬ ∃ ns, Version.parse "²" = .ok ns) ∧
    Version.parse (Version.written [1, 7, 0] ++ "-rc") = .ok [1, 7, 0] ∧
    Version.parse (Version.written [1, 2] ++ "-rc.5") ≠ .ok [1, 2] ∧
    (∃ server', checkVersion (Engine.ofAllowance 2) "2.9" (.loopback Repl.idle []) =
      .ok "2.10" (.loopback server' [])) ∧
    (∃ server', checkVersion (Engine.ofAllowance 2) "3" (.loopback Repl.idle []) =
      .error (.error (.unsupported "2.10" "3")) (.loopback server' [])) ∧
    checkVersion (Engine.ofAllowance 0) "2.9"
      (.streams ["stklos> \x222.10\x22\n".toList, ['\n']] "" true) =
        .ok "2.10" (.streams [] "(version)\n" true) := by
  obtain ⟨hparse, hwritten, -, hrecent, -, hstreams⟩ :=
    version_gate (Engine.ofAllowance 0) "2.10" "2.9"
  obtain ⟨-, -, -, hold, -, -⟩ := version_gate (Engine.ofAllowance 0) "2.10" "3"
  obtain ⟨hconnection, hpending, hm, hframed, hversion⟩ :
      Repl.idle.connection = some 0 ∧ Repl.idle.pending = "" ∧
        Repl.idle.machine.Resolves "version" (.builtin .version) ∧
        Framed (Datum.str "2.10").write ∧ Repl.idle.machine.version = "2.10" := by
    decide +kernel
  have hconnect := Repl.connect_of_some hconnection
  have hreturned : verdict "2.10" "2.9" = .ok "2.10" := by cbv
  have hrefused : verdict "2.10" "3" = .error (.error (.unsupported "2.10" "3")) := by cbv
  have hsuffix : ∀ c ∈ "-rc".toList.head?, isDigit c = false ∧ c ≠ '.' := by
    rintro c ⟨⟩
    decide
  have hdotted : ∀ c ∈ "-rc.5".toList.head?, isDigit c = false ∧ c ≠ '.' := by
    rintro c ⟨⟩
    decide
  refine ⟨?_, (hwritten [1, 7, 0] "-rc" hsuffix).mpr ?_, fun heq => ?_, ?_, ?_, ?_⟩
  · rintro ⟨ns, hns⟩
    obtain ⟨hdecimal, -⟩ := (hparse _ _).mp hns
    exact absurd hdecimal (by decide)
  · rintro c ⟨⟩
  · have hfive := (hwritten [1, 2] "-rc.5" hdotted).mp heq '5' rfl
    exact absurd hfive (by decide)
  · obtain ⟨server', -, -, hcheck⟩ := hrecent 0 _ _ [] Repl.reachable_idle hpending hconnect hm
      hversion (List.forall_mem_nil _) hframed
    rw [hreturned] at hcheck
    exact ⟨server', hcheck⟩
  · obtain ⟨server', -, -, hcheck⟩ := hold 0 _ _ [] Repl.reachable_idle hpending hconnect hm
      hversion (List.forall_mem_nil _) hframed
    rw [hrefused] at hcheck
    exact ⟨server', hcheck⟩
  · have hprompt : IsPrompt "stklos> ".toList := .inr ⟨"stklos".toList, by decide, rfl⟩
    have hcheck := hstreams "" "stklos> ".toList [] [] hprompt (List.forall_mem_nil _)
      (.inl (by decide))
    have hline : "stklos> ".toList ++ ((Datum.str "2.10").write.toList ++ ['\n']) =
        "stklos> \x222.10\x22\n".toList := by cbv
    have hsent : "" ++ versionText ++ "\n" = "(version)\n" := by decide
    rw [hreturned, hline, hsent] at hcheck
    exact hcheck

end Session

end LiveScheme
