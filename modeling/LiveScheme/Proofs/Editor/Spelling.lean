import LiveScheme.Proofs.Editor.Request

/-!
# Spelling requests

A request is put together from texts that each spell a datum: names, quotations, and lists of such
texts with blanks between them. What they spell together is the list of what they spell alone.
-/

namespace LiveScheme

open Text

/-- The text is read as the datum wherever a gap follows it. -/
def Spells (w : List Char) (d : Datum) : Prop :=
  ∃ ts, Lexed.Yields w ts ∧ Datum.Reading.Delivers ts d

namespace Spells

open Datum.Reading

theorem of_readable {d : Datum} (h : d.Readable) : Spells (Node.chars Empty.elim true d) d :=
  ⟨d.tokens, Lexed.yields_chars h.lexical, h.delivers⟩

theorem readAll {w : List Char} {d : Datum} (h : Spells w d) {blanks : List Char}
    (hb : ∀ c ∈ blanks, isBlank c = true) :
    Datum.readAll (String.ofList (w ++ blanks)) = .ok [d] := by
  obtain ⟨ts, hy, hd⟩ := h
  exact Datum.readAll_of_yields hy hd hb

theorem quoted {w : List Char} {d : Datum} (h : Spells w d) : Spells ('\x27' :: w) d.quoted := by
  obtain ⟨ts, hy, hd⟩ := h
  refine ⟨Token.quote :: ts, fun total blanks rest hb hr => ?_, delivers_quoted hd⟩
  rw [List.cons_append, Command.scanFrom_quote hb]
  change _ = Lexed.prepend ([Token.quote] ++ ts) _
  rw [Lexed.prepend_append, ← hy total [] rest (List.forall_mem_nil _) hr]
  rfl

/-- A text between quotation marks, with its characters escaped. -/
theorem quotation {f : Char → List Char} (hf : Printer.Escapes f) (text : String) :
    Spells ('\x22' :: text.toList.flatMap f ++ ['\x22']) (.str text) :=
  ⟨_, Lexed.yields_of_scan (by decide) fun rest _ => Token.scan_quoted_append hf _ rest,
    delivers_quotation hf text⟩

variable {parts : List (List Char × Datum)}

/-- Texts with blanks between them, inside an open list. -/
theorem items (h : ∀ p ∈ parts, Spells p.1 p.2) (hne : parts ≠ []) :
    ∃ ts, Lexed.Yields ([' '].intercalate (parts.map Prod.fst)) ts ∧
      ∀ done acc stack, run ⟨done, .list acc :: stack⟩ ts =
        .ok ⟨done, .list ((parts.map Prod.snd).reverse ++ acc) :: stack⟩ := by
  induction parts with
  | nil => exact absurd rfl hne
  | cons p rest ih =>
    obtain ⟨⟨ts, hy, hd⟩, hrest⟩ := List.forall_mem_cons.mp h
    cases rest with
    | nil =>
      refine ⟨ts, ?_, fun done acc stack => ?_⟩
      · rwa [List.map_singleton, List.intercalate_singleton]
      · exact hd done (.list acc :: stack) trivial
    | cons q rest =>
      obtain ⟨us, hus, hrun⟩ := ih hrest (List.cons_ne_nil q rest)
      refine ⟨ts ++ us, ?_, fun done acc stack => ?_⟩
      · have hboth := Lexed.yields_append_space hy hus
        rw [List.map_cons, List.map_cons, List.intercalate_cons_cons, List.append_assoc]
        exact hboth
      · rw [run_append, hd done (.list acc :: stack) trivial]
        change run ⟨done, .list (p.2 :: acc) :: stack⟩ us = _
        have hreverse : (((p :: q :: rest).map Prod.snd).reverse ++ acc) =
            ((q :: rest).map Prod.snd).reverse ++ p.2 :: acc := by
          rw [List.map_cons, List.reverse_cons, List.append_assoc, List.singleton_append]
        rw [hrun, hreverse]

variable (parts) in
/-- A list of texts in brackets. -/
theorem list (h : ∀ p ∈ parts, Spells p.1 p.2) :
    Spells ('(' :: [' '].intercalate (parts.map Prod.fst) ++ [')'])
      (.list (parts.map Prod.snd)) := by
  have hlist : ∀ {w : List Char} (ts : List Token) {ds : List Datum},
      (∀ total rest, Token.AtGap rest →
        Lexed.scanFrom total (w ++ rest) = Lexed.prepend ts (Lexed.scanFrom total rest)) →
      (∀ done stack, run ⟨done, .list [] :: stack⟩ ts =
        .ok ⟨done, .list ds.reverse :: stack⟩) →
      Spells ('(' :: w ++ [')']) (.list ds) := by
    intro w ts ds hscan hrun
    refine ⟨_, Lexed.yields_bracket [] (by decide) (fun _ => rfl) hscan, ?_⟩
    intro done stack hs
    rw [List.cons_append, run_cons_of_takes hs]
    change run ⟨done, .list [] :: stack⟩ (ts ++ [Token.close]) = _
    rw [run_append, hrun]
    change Except.ok (deliver done (Datum.list ds.reverse.reverse) stack) = _
    rw [List.reverse_reverse]
  cases parts with
  | nil => exact hlist [] (fun _ _ _ => rfl) fun _ _ => rfl
  | cons p rest =>
    obtain ⟨ts, hy, hrun⟩ := items h (List.cons_ne_nil p rest)
    refine hlist ts (fun total more hr => hy total [] more (List.forall_mem_nil _) hr) ?_
    intro done stack
    rw [hrun, List.append_nil]

end Spells

namespace Command

theorem escapes_escapeChar : Printer.Escapes escapeChar := by
  intro c
  unfold escapeChar
  split
  · next h => exact .inl ⟨'\\', by simp, rfl, by rw [h]; decide⟩
  split
  · next h => exact .inl ⟨'\x22', by simp, rfl, by rw [h]; decide⟩
  split
  · next h => exact .inl ⟨'n', by simp, rfl, by rw [h]; decide⟩
  · next hslash hquote _ => exact .inr ⟨rfl, hslash, hquote⟩

theorem spells_quoteText (text : String) : Spells (quoteText text).toList (.str text) := by
  rw [quoteText, String.toList_ofList]
  exact .quotation escapes_escapeChar text

/-- A call that asks for entries about names, as the server reads it. -/
def autodocDatum (ids : List String) : Datum :=
  .list [.sym "geiser:autodoc", (Datum.list (ids.map fun id => .str id)).quoted,
    .list [.sym "current-module"]]

theorem readableName_call {name : String} (h : name ∈ ["geiser:autodoc", "current-module"]) :
    ReadableName name := by
  revert name
  decide

theorem ne_nil_of_quoteText (text : String) : (quoteText text).isEmpty = false := by
  have htext : (quoteText text).toList = '\x22' :: (text.toList.flatMap escapeChar ++ ['\x22']) :=
    String.toList_ofList
  cases h : (quoteText text).isEmpty with
  | false => rfl
  | true => rw [String.isEmpty_iff.mp h] at htext; cases htext

/-- The names of a request are those that are asked for. -/
theorem filter_quoteText (ids : List String) :
    ((ids.map fun id => some (quoteText id)).filterMap id).filter (!·.isEmpty) =
      ids.map quoteText := by
  have hsome : (ids.map fun id => some (quoteText id)).filterMap id = ids.map quoteText := by
    rw [List.filterMap_map]
    exact congrFun (List.filterMap_eq_map' (f := quoteText)) ids
  rw [hsome, List.filter_eq_self.mpr]
  exact List.forall_mem_map.mpr fun id _ => by rw [ne_nil_of_quoteText]; rfl

/-- The text of a request for entries about names. -/
theorem expression_autodoc (ids : List String) :
    expression ⟨"autodoc", ids.map fun id => some (quoteText id)⟩ none =
      .ok ("(geiser:autodoc '(" ++ " ".intercalate (ids.map quoteText) ++ ") " ++
        "(current-module)" ++ ")") := by
  have hexpression : expression ⟨"autodoc", ids.map fun id => some (quoteText id)⟩ none =
      autodocText (ids.map fun id => some (quoteText id)) none := by
    simp [expression]
  rw [hexpression, autodocText, filter_quoteText]
  rfl

end Command

end LiveScheme
