import LiveScheme.Proofs.Editor.Request
import LiveScheme.Proofs.Reading.Names
import LiveScheme.Proofs.Reading.Splice

/-!
# Forms sent as they are

A command to evaluate puts the text of its form into the request as it is, and writes the module
name anew. The request is the call that was meant exactly when the text does not end open and the
module name reads back as it is written. A text that ends open takes in the bracket behind it, and
the request is incomplete.
-/

namespace LiveScheme

open Text

namespace Command

/-- The call that a request to evaluate is meant to be. -/
def meantDatum (home : Option Datum) (form : Datum) : Datum :=
  .list [.sym "geiser:eval", home.elim (.bool false) Datum.quoted, form.quoted]

/-- The text of a module name, and the name that is read from it. -/
abbrev NamesModule : Option String → Option Datum → Prop :=
  Option.Rel fun text d => Datum.readAll text = .ok [d] ∧ isName d = true

variable {home : Option String} {name : Option Datum}

theorem moduleText_of_name (h : NamesModule home name) :
    moduleText home = .ok (name.elim "#f" fun d => "'" ++ d.write) := by
  cases h with
  | some hd => rw [moduleText_of_readAll hd.1, hd.2]; rfl
  | none => rfl

/-- A module name without the beginning of a character in it is read as what it is written as. -/
theorem exists_leads (h : NamesModule home name) (hbare : ∀ d ∈ name, "#\\" ∉ d.names) :
    ∃ w ts, moduleText home = .ok (String.ofList w) ∧ Leads w ts ∧
      Datum.Reading.Delivers ts (name.elim (.bool false) fun d => d.reread.quoted) := by
  rw [moduleText_of_name h]
  cases h with
  | none =>
    have hfalse : Datum.Readable (.bool false) := .bool false trivial
    exact ⟨['#', 'f'], _, rfl, leads_of_yields (Lexed.yields_word Token.isWord_false),
      hfalse.delivers⟩
  | @some text d hd =>
    have hread : d.Over Datum.IsRead :=
      Datum.over_isRead_of_readAll hd.1 (List.mem_singleton.mpr rfl)
    have hspelt : d.Over Datum.IsSpelt := by
      refine hread.of_names (fun name hname => ?_) fun a hsym _ => ?_
      · have hname' : Datum.ReadName name := hread.sym_of_mem_names hname
        exact hname'.isWord.resolve_right fun heq => hbare d rfl (heq ▸ hname)
      · cases a with
        | sym name => exact absurd rfl (hsym name)
        | _ => trivial
    have hdenoted : d.Over Datum.IsDenoted := hread.mono fun a ha => by
      cases a with
      | sym name => exact ⟨Datum.ReadName.ne_dot ha, Datum.ReadName.denotes ha⟩
      | _ => trivial
    have htext : String.ofList ('\x27' :: Node.chars Empty.elim true d) = "'" ++ d.write :=
      @String.ofList_append ['\x27'] _
    exact ⟨_, _, congrArg Except.ok htext.symm, leads_quote (Lexed.yields_of_isSpelt hspelt),
      Datum.Reading.delivers_quoted hdenoted.delivers_reread⟩

section Form

open Datum.Reading

variable {form : String} {d : Datum} (hform : Datum.readAll form = .ok [d]) {w : List Char}
  {ts : List Token} {asked : Datum} (hw : Leads w ts) (hts : Delivers ts asked)

include hw in
theorem ofText_call (form : String) : Lexed.ofText (callText (String.ofList w) form).toList =
    Lexed.prepend (callTokens ts) (Lexed.scanFrom (callText (String.ofList w) form).toList.length
      (form.toList ++ [')'])) := by
  have htext := toList_callText w form.toList
  rw [String.ofList_toList] at htext
  have hscan := scanFrom_call hw (callText (String.ofList w) form).toList.length
    (List.forall_mem_nil _) (form.toList ++ [')'])
  rwa [List.nil_append, ← htext] at hscan

include hform hw hts

/-- A text that does not end open is the quoted form of the call. -/
theorem readAll_callText (h : ¬ Lexed.EndsOpen form.toList) :
    Datum.readAll (callText (String.ofList w) form) =
      .ok [.list [.sym "geiser:eval", asked, d.quoted]] := by
  have hcall := ofText_call hw form
  obtain ⟨us, hscan, hus⟩ := (Datum.scanFrom_close_of_readAll hform _).1 h
  rw [hscan] at hcall
  have hrun := delivers_call hts hus [] [] trivial
  rw [Datum.readAll_of_run (by rw [hcall]; exact hrun), hcall]
  rfl

/-- A text that ends open leaves the request incomplete. -/
theorem readAll_callText_open (h : Lexed.EndsOpen form.toList) :
    Datum.readAll (callText (String.ofList w) form) = .error (.incomplete .list) := by
  have hcall := ofText_call hw form
  obtain ⟨us, e, hscan, hus⟩ := (Datum.scanFrom_close_of_readAll hform _).2 h
  rw [hscan] at hcall
  have hnone : Takes [] := trivial
  have hrun := run_call_open hts hus [] hnone
  rw [Datum.readAll_of_run (by rw [hcall]; exact hrun), hcall]
  rfl

end Form

/-- What begins like a character is no name in front of a bracket. -/
theorem not_mem_names_of_readAll {text : String} {forms : List Datum}
    (h : Datum.readAll (text ++ ")") = .ok forms) {d : Datum} (hd : d ∈ forms) :
    "#\\" ∉ d.names := by
  intro hname
  have hnamed : Datum.Named _ "#\\" := (Datum.named_of_readAll h d hd).sym_of_mem_names hname
  obtain hquote | ⟨t, ht, hk, htext, -⟩ := hnamed
  · exact absurd hquote (by decide)
  · obtain hword | ⟨-, hlast⟩ := Lexed.isWord_of_mem_tokens ht hk
    · have hopens := hword.opens
      rw [htext] at hopens
      cases hopens
    · rw [String.toList_append] at hlast
      exact Datum.not_suffix_of_close hlast

/-- A command to evaluate a form that is one datum, in a module that is named by one datum or in
none, is one call of the service with exactly these if and only if the text of the form does not end
open and the name is read as it is written. Where only the first fails the request is incomplete. -/
theorem eval_reads_iff {form : String} {d : Datum} (hform : Datum.readAll form = .ok [d])
    (hhome : NamesModule home name) : ∃ text,
    expression ⟨"eval", [home, some form]⟩ none = .ok text ∧
      (Datum.readAll text = .ok [meantDatum name d] ↔
        ¬ Lexed.EndsOpen form.toList ∧ ∀ e ∈ name, e.Legible) ∧
      (Lexed.EndsOpen form.toList → (∀ e ∈ name, e.Legible) →
        Datum.readAll text = .error (.incomplete .list)) := by
  have hlegible : ∀ e ∈ name, e.Legible ↔ e.reread = e ∧ "#\\" ∉ e.names := by
    intro e he
    cases hhome with
    | none => cases he
    | some hread =>
      cases he
      exact Datum.legible_iff (Datum.over_isRead_of_readAll hread.1 (List.mem_singleton.mpr rfl))
  have hexpression : ∀ {text : String}, moduleText home = .ok text →
      expression ⟨"eval", [home, some form]⟩ none = .ok (callText text form) := fun htext => by
    change evalText home (some form) = _
    rw [evalText, htext]
    rfl
  by_cases hbare : ∀ e ∈ name, "#\\" ∉ e.names
  · obtain ⟨w, ts, htext, hw, hts⟩ := exists_leads hhome hbare
    refine ⟨_, hexpression htext, ?_, fun hopen _ => readAll_callText_open hform hw hts hopen⟩
    by_cases hopen : Lexed.EndsOpen form.toList
    · rw [readAll_callText_open hform hw hts hopen]
      refine ⟨fun h => ?_, fun h => absurd hopen h.1⟩
      cases h
    · rw [readAll_callText hform hw hts hopen]
      refine ⟨fun heq => ⟨hopen, fun e he => ?_⟩, fun h => ?_⟩
      · cases he
        have hreread : e.reread = e := by simpa [meantDatum, Datum.quoted] using heq
        exact (hlegible e rfl).mpr ⟨hreread, hbare e rfl⟩
      · cases name with
        | none => rfl
        | some e =>
          have hreread := ((hlegible e rfl).mp (h.2 e rfl)).1
          rw [Option.elim_some, hreread]
          rfl
  · -- what begins like a character takes a bracket or a blank, so that it is no name any more
    obtain ⟨e, he, hmem⟩ : ∃ e ∈ name, "#\\" ∈ e.names := by simpa using hbare
    have hnot : ¬ ∀ e ∈ name, e.Legible := fun h => ((hlegible e he).mp (h e he)).2 hmem
    refine ⟨_, hexpression (moduleText_of_name hhome), ⟨fun hread => ?_, fun h => absurd h.2 hnot⟩,
      fun _ h => absurd h hnot⟩
    cases he
    have hnames := not_mem_names_of_readAll hread (List.mem_singleton.mpr rfl)
    exact absurd (by simp [meantDatum, Datum.quoted, Datum.names, Datum.namesOf, hmem]) hnames

/-- A sum in a module with two names, and a number with a comment behind it. -/
theorem eval_reads_sum :
    (∃ text, expression ⟨"eval", [some "(a b)", some "(+ 1 2)"]⟩ none = .ok text ∧
      Datum.readAll text = .ok [meantDatum (some (.list [.sym "a", .sym "b"]))
        (.list [.sym "+", .int 1, .int 2])]) ∧
    ∃ text, expression ⟨"eval", [none, some "1 ;c"]⟩ none = .ok text ∧
      Datum.readAll text = .error (.incomplete .list) := by
  have hsum : Datum.readAll "(+ 1 2)" = .ok [.list [.sym "+", .int 1, .int 2]] := by cbv
  have hnames : Datum.readAll "(a b)" = .ok [.list [.sym "a", .sym "b"]] := by cbv
  have hone : Datum.readAll "1 ;c" = .ok [.int 1] := by cbv
  have hclosed : ¬ Lexed.EndsOpen "(+ 1 2)".toList :=
    Lexed.not_endsOpen_of_not_mem (by decide) (by decide)
  have hopen : Lexed.EndsOpen "1 ;c".toList :=
    .later (show _ = some [' ', ';', 'c'] from rfl)
      (.comment (show _ = ';' :: ['c'] from rfl) (by decide))
  have hlegible : (Datum.list [.sym "a", .sym "b"]).Legible := by
    have ha : "a" ∉ misread := by decide
    have hb : "b" ∉ misread := by decide
    exact .list _ (List.forall_mem_cons.mpr ⟨.sym _ ha, List.forall_mem_singleton.mpr (.sym _ hb)⟩)
  obtain ⟨text, htext, hreads, -⟩ := eval_reads_iff hsum (.some ⟨hnames, rfl⟩)
  obtain ⟨text', htext', -, hincomplete⟩ := eval_reads_iff hone .none
  have hnone : ∀ e ∈ (none : Option Datum), e.Legible := by simp
  refine ⟨⟨text, htext, hreads.mpr ⟨hclosed, fun e he => ?_⟩⟩, text', htext',
    hincomplete hopen hnone⟩
  cases he
  exact hlegible

end Command

end LiveScheme
