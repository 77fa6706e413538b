import LiveScheme.Proofs.Reading.LineEnd
import LiveScheme.Proofs.Repl.Recovery

/-!
# Requests that are checked before they are sent

An editor that waits for a reply must not send what the server has to wait on. It sends a text with
the end of a line behind it, and before that it reads the text alone: an incomplete text is not
sent. So the server waits after a text that was sent only where the two read differently, which is
at a backslash in an open string, or where the reader faults and the text stays.
-/

namespace LiveScheme

theorem Datum.readAll_of_allBlank {text : String} (h : Text.allBlank text.toList = true) :
    Datum.readAll text = .ok [] := by
  have hblank : Lexed.ofText text.toList = ⟨[], none⟩ :=
    Lexed.scanFrom_blank (List.all_eq_true.mp h)
  have hrun : Reading.start.run (Lexed.ofText text.toList).tokens = .ok Reading.start := by
    rw [hblank]
    rfl
  rw [Datum.readAll_of_run hrun, hblank]
  rfl

namespace Repl

variable {g : Engine} {r opened : Repl} {text : String}

/-- Input that the server keeps: it can still be completed, or the reader faults on it. -/
def Kept (request : String) : Prop :=
  (∃ gap, Datum.readAll request = .error (.incomplete gap)) ∨
    ∃ f, Datum.readAll request = .error (.fault f)

theorem Kept.allBlank {request : String} (h : Kept request) :
    Text.allBlank request.toList = false := by
  rw [← Bool.not_eq_true]
  intro hblank
  rcases h with ⟨gap, h⟩ | ⟨f, h⟩ <;>
  · rw [Datum.readAll_of_allBlank hblank] at h
    cases h

theorem pending_of_kept (hopen : connect r = .ok () opened) (h : Kept (opened.pending ++ text)) :
    ((handle g text).after r).pending = opened.pending ++ text := by
  rcases h with ⟨gap, h⟩ | ⟨f, h⟩
  · rw [Serving.after_of_ok (handle_incomplete hopen h)]
  · rw [Serving.after_of_error (handle_fault hopen h)]

/-- Nothing is left of any other input, however the answer ends. -/
theorem pending_of_not_kept (hg : g.Moves) (hopen : connect r = .ok () opened)
    (hr : opened.LogsReady) (h : ¬ Kept (opened.pending ++ text)) :
    ((handle g text).after r).pending = "" := by
  have hready : LogsReady { opened with pending := "" } := ⟨hr.machine, hr.logFile⟩
  cases hread : Datum.readAll (opened.pending ++ text) with
  | ok forms =>
    have heq := handle_forms (g := g) hopen hread
    rcases answers_cases hg hready (opened.pending ++ text) forms with
      ⟨out, s, hs, hpending, -⟩ | ⟨stop, s, hs, hpending, -⟩
    · rw [Serving.after_of_ok (heq.trans hs), hpending]
    · rw [Serving.after_of_error (heq.trans hs), hpending]
  | error e =>
    have hgap : e.isIncomplete = false := by
      cases e with
      | incomplete gap => exact absurd (.inl ⟨gap, hread⟩) h
      | _ => rfl
    have hfault : ∀ f, e ≠ .fault f := by
      rintro f rfl
      exact h (.inr ⟨f, hread⟩)
    obtain ⟨disk, hrespond⟩ := respond_ok hready (opened.pending ++ text)
      ((Reply.error e.message).datum.write ++ "\n\n")
    rw [Serving.after_of_ok ((handle_rejected hopen hread hgap hfault).trans hrespond)]

theorem pending_of_disconnect (r : Repl) : (disconnect.after r).pending = "" := by
  obtain ⟨machine, loadPath, logFile, promptText, connection, pending⟩ := r
  cases connection <;> rfl

theorem pending_of_start {machine : Machine} {loadPath : List String} {logFile : Option String}
    {promptText : String} (h : Repl.start machine loadPath logFile promptText = .ok r) :
    r.pending = "" := by
  unfold Repl.start at h
  split at h
  · next hopen =>
    cases h
    rw [EStateM.run, connect_of_none rfl] at hopen
    split at hopen
    · cases hopen
      rfl
    · cases hopen
  · cases h

/-- A server has nothing pending or what it had to keep. -/
theorem Reachable.pending_eq_or_kept (hr : r.Reachable) : r.pending = "" ∨ Kept r.pending := by
  have hconnect : ∀ {r : Repl}, r.Reachable → (Repl.connect.after r).pending = r.pending := by
    intro r hr
    obtain ⟨opened, hopen, hopens⟩ := hr.connect_ok
    rw [Serving.after_of_ok hopen, hopens.pending]
  induction hr with
  | @start version promptText disk machine loadPath logFile r hfresh hstart =>
    exact .inl (pending_of_start hstart)
  | @handle r allowance text hr ih =>
    obtain ⟨opened, hopen, hopens⟩ := hr.connect_ok
    by_cases h : Kept (opened.pending ++ text)
    · rw [pending_of_kept hopen h]
      exact .inr h
    · exact .inl (pending_of_not_kept (Engine.moves_ofAllowance allowance) hopen
        hopens.reachable.logsReady h)
  | discard _ _ => exact .inl rfl
  | @disconnect r _ _ => exact .inl (pending_of_disconnect r)
  | @connect r hr ih => rwa [hconnect hr]

/-- A server that does not wait has nothing pending. -/
theorem Reachable.pending_eq (hr : r.Reachable) (h : r.isWaiting = false) : r.pending = "" := by
  refine hr.pending_eq_or_kept.resolve_right fun hkept => ?_
  rw [isWaiting, hkept.allBlank] at h
  cases h

end Repl

end LiveScheme
