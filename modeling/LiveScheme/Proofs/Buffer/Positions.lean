import LiveScheme.Proofs.Buffer.Brackets

/-!
# Positions of definitions

The position of an offset leads back to it: the line starts where the last line feed in front of the
offset ended, and the column counts from there. The index of a buffer gives the position of each
name that it defines, and there stands a token that begins the name, and the whole name.
-/

namespace LiveScheme.Buffer

open Scanner

variable {text : List Char} {start offset : Nat} {t : Span} {ts : List Span}

/-- An offset lies in the line of its position, the column behind where the line starts; a position
in the line that was begun with counts on from its column. -/
theorem lineStart_positionFrom (p : Position) {n : Nat} {cs : List Char} (h : n ≤ cs.length)
    (base : Nat) : ∃ start,
      lineStart base ((positionFrom p n cs).line - p.line) cs = some start ∧
      p.line ≤ (positionFrom p n cs).line ∧
      start + (positionFrom p n cs).column =
        base + n + if (positionFrom p n cs).line = p.line then p.column else 0 := by
  induction n generalizing p cs base with
  | zero => exact ⟨base, by simp [positionFrom, lineStart], by simp [positionFrom]⟩
  | succ n ih =>
    cases cs with
    | nil => simp at h
    | cons c rest =>
      have hrest : n ≤ rest.length := Nat.le_of_succ_le_succ h
      rw [positionFrom]
      by_cases hc : c = '\n'
      · rw [if_pos hc]
        obtain ⟨start, hstart, hline, hcolumn⟩ := ih ⟨p.line + 1, 0⟩ hrest (base + 1)
        dsimp only at hstart hline hcolumn
        have hlines : (positionFrom ⟨p.line + 1, 0⟩ n rest).line - p.line =
            ((positionFrom ⟨p.line + 1, 0⟩ n rest).line - (p.line + 1)) + 1 := by omega
        refine ⟨start, ?_, by omega, ?_⟩
        · rw [hlines, lineStart, if_pos hc, hstart]
        · rw [if_neg (by omega)]
          split at hcolumn <;> omega
      · rw [if_neg hc]
        obtain ⟨start, hstart, hline, hcolumn⟩ := ih ⟨p.line, p.column + 1⟩ hrest (base + 1)
        dsimp only at hstart hline hcolumn
        by_cases hsame : (positionFrom ⟨p.line, p.column + 1⟩ n rest).line = p.line
        · rw [hsame, Nat.sub_self, lineStart] at hstart
          rw [if_pos hsame] at hcolumn
          cases hstart
          refine ⟨base, by rw [hsame, Nat.sub_self, lineStart], hline, ?_⟩
          rw [if_pos hsame]
          omega
        · obtain ⟨lines, hlines⟩ : ∃ lines,
              (positionFrom ⟨p.line, p.column + 1⟩ n rest).line - p.line = lines + 1 :=
            ⟨_, (Nat.succ_pred_eq_of_pos (by omega)).symm⟩
          rw [if_neg hsame] at hcolumn
          refine ⟨start, ?_, hline, ?_⟩
          · rw [hlines, lineStart, if_neg hc, ← hlines, hstart]
          · rw [if_neg hsame]
            omega

theorem offsetOf_positionOf (h : offset ≤ text.length) :
    offsetOf text (positionOf text offset).line (positionOf text offset).column = offset := by
  obtain ⟨start, hstart, -, hcolumn⟩ := lineStart_positionFrom ⟨0, 0⟩ h 0
  rw [Nat.sub_zero] at hstart
  have hcolumn : start + (positionOf text offset).column = offset := by
    simpa [positionOf] using hcolumn
  have hline : lineStart 0 (positionOf text offset).line text = some start := hstart
  rw [offsetOf, Int.toNat_natCast, hline]
  dsimp only
  omega

/-- A form closes behind its opener, or the text ends there. -/
theorem stop_le_matchingClose (ht : t ∈ tokens text) (hopen : t.isOpener = true) :
    (t.stop : Int) ≤ matchingClose text t.start := by
  obtain ⟨before, after, htokens⟩ := List.append_of_mem ht
  rw [matchingClose_eq htokens hopen]
  cases hclosing : closingStart 1 after with
  | none => exact Int.ofNat_le.mpr (standsIn_of_mem ht).stop_le
  | some close =>
    obtain ⟨c, hc, rfl⟩ := exists_of_closingStart hclosing
    have hlater := (List.pairwise_append.mp (htokens ▸ pairwise_tokens text)).2.1
    exact Int.ofNat_le.mpr ((List.pairwise_cons.mp hlater).1 c hc)

/-- The text of a form begins with its opener and goes on as the buffer does. -/
theorem formAt_begins (ht : t ∈ tokens text) (hopen : t.isOpener = true) :
    t.text <+: formAt text t.start ∧ formAt text t.start <+: text.drop t.start := by
  have hstands := standsIn_of_mem ht
  have hclose := stop_le_matchingClose ht hopen
  have hform : formAt text t.start =
      (text.drop t.start).take ((matchingClose text t.start).toNat + 1 - t.start) := by
    rw [formAt, List.drop_take]
  have hlength : t.text.length ≤ (formAt text t.start).length := by
    have hfits := hstands.begins.length_le
    have hstop := hstands.stop
    rw [hform, List.length_take]
    omega
  have hbegins : formAt text t.start <+: text.drop t.start := hform ▸ List.take_prefix _ _
  exact ⟨List.prefix_of_prefix_length_le hstands.begins hbegins hlength, hbegins⟩

/-- The definition has a name that stands in the text at its position, where a token begins it. -/
def Definition.StandsIn (text : List Char) (d : Definition) : Prop :=
  ∃ t ∈ tokens text, d.position = positionOf text t.start ∧ t.text <+: d.name ∧
    d.name <+: text.drop t.start

namespace Index

theorem definedName_stands {isModule : Bool} {name : List Char} {kind : DefinitionKind}
    (hts : ∀ t ∈ ts, t ∈ tokens text)
    (h : definedName text isModule ts = some (name, start, kind)) :
    ∃ t ∈ tokens text, start = t.start ∧ t.text <+: name ∧ name <+: text.drop t.start := by
  have hword : ∀ t ∈ ts, ∃ u ∈ tokens text, t.start = u.start ∧ u.text <+: t.text ∧
      t.text <+: text.drop u.start := fun t ht =>
    ⟨t, hts t ht, rfl, List.prefix_refl _, (standsIn_of_mem (hts t ht)).begins⟩
  unfold definedName at h
  split at h
  · cases h
  next t rest =>
  have ht : t ∈ tokens text := hts t List.mem_cons_self
  split at h
  · next hopen =>
    split at h
    · cases h
      exact ⟨t, ht, rfl, formAt_begins ht hopen⟩
    · split at h
      · cases h
        exact hword _ (List.mem_cons_of_mem t List.mem_cons_self)
      · cases h
  · cases h
    exact hword t List.mem_cons_self

theorem mem_putDefinition {d e : Definition} {ds : List Definition}
    (h : d ∈ putDefinition e ds) : d = e ∨ d ∈ ds := by
  induction ds with
  | nil => exact .inl (List.mem_singleton.mp h)
  | cons f rest ih =>
    rw [putDefinition] at h
    split at h
    · exact (List.mem_cons.mp h).imp_right (List.mem_cons_of_mem f)
    · rcases List.mem_cons.mp h with rfl | h
      · exact .inr List.mem_cons_self
      · exact (ih h).imp_right (List.mem_cons_of_mem f)

/-- The definition is that of a form with these tokens behind its opener. -/
def DefinedBy (text : List Char) (ts : List Span) (d : Definition) : Prop :=
  ∃ head rest isModule start kind, ts = head :: rest ∧
    definedName text isModule rest = some (d.name, start, kind) ∧
    d.position = positionOf text start

theorem DefinedBy.stands {d : Definition} (hts : ∀ t ∈ ts, t ∈ tokens text)
    (h : DefinedBy text ts d) : d.StandsIn text := by
  obtain ⟨head, rest, isModule, start, kind, rfl, hdefined, hposition⟩ := h
  obtain ⟨t, ht, rfl, hname⟩ := definedName_stands
    (fun t ht => hts t (List.mem_cons_of_mem head ht)) hdefined
  exact ⟨t, ht, hposition, hname⟩

/-- All that a form adds to an index is the definition of the name that it defines. -/
theorem mem_noteDefinition {idx : Index} {d : Definition}
    (h : d ∈ (noteDefinition text idx ts).symbols ++ (noteDefinition text idx ts).modules) :
    d ∈ idx.symbols ++ idx.modules ∨ DefinedBy text ts d := by
  rw [List.mem_append] at h ⊢
  cases ts with
  | nil => exact .inl h
  | cons head rest =>
    rw [noteDefinition] at h
    split at h
    · exact .inl h
    dsimp only at h
    split at h
    · exact .inl h
    next name start kind hdefined =>
    split at h
    · exact .inl h
    split at h
    · rcases h with h | h
      · exact .inl (.inl h)
      rcases List.mem_append.mp h with h | h
      · exact .inl (.inr h)
      · rw [List.mem_singleton.mp h]
        exact .inr ⟨head, rest, _, start, kind, rfl, hdefined, rfl⟩
    · rcases h with h | h
      · rcases mem_putDefinition h with rfl | h
        · exact .inr ⟨head, rest, _, start, kind, rfl, hdefined, rfl⟩
        · exact .inl (.inl h)
      · exact .inl (.inr h)

/-- What is in the index stays there, and what each token adds stands in the text. -/
theorem build_stands {idx : Index} (hts : ∀ t ∈ ts, t ∈ tokens text)
    (hidx : ∀ d ∈ idx.symbols ++ idx.modules, d.StandsIn text) :
    ∀ d ∈ (build text idx ts).symbols ++ (build text idx ts).modules, d.StandsIn text := by
  induction ts generalizing idx with
  | nil => exact hidx
  | cons t ts ih =>
    have hrest : ∀ u ∈ ts, u ∈ tokens text := fun u hu => hts u (List.mem_cons_of_mem t hu)
    rw [build]
    refine ih hrest ?_
    split
    · exact fun d hd => (mem_noteDefinition hd).elim (hidx d) (DefinedBy.stands hrest)
    split
    · exact hidx
    split
    · exact hidx
    · exact hidx

end Index

/-- Every definition that a buffer has is at the start of a token that begins its name, and there
the whole name stands. And the position of an offset in a text leads back to the offset. -/
theorem ofText_points (text : List Char) :
    (∀ d ∈ (Index.ofText text).symbols ++ (Index.ofText text).modules, ∃ t ∈ tokens text,
      offsetOf text d.position.line d.position.column = t.start ∧ t.text <+: d.name ∧
        d.name <+: text.drop t.start) ∧
    ∀ offset ≤ text.length,
      offsetOf text (positionOf text offset).line (positionOf text offset).column = offset := by
  refine ⟨fun d hd => ?_, fun offset => offsetOf_positionOf⟩
  have hempty : ∀ d ∈ Index.empty.symbols ++ Index.empty.modules, d.StandsIn text := nofun
  obtain ⟨t, ht, hposition, hname⟩ := Index.build_stands (fun _ => id) hempty d hd
  have hstands := standsIn_of_mem ht
  have hoffset : t.start ≤ text.length :=
    Nat.le_trans (Nat.le_of_lt hstands.start_lt) hstands.stop_le
  refine ⟨t, ht, ?_, hname⟩
  rw [hposition, offsetOf_positionOf hoffset]

/-- Two libraries named by lists, of which the second one is not closed, and a procedure. -/
def halfTyped : List Char := "(define-module (a b)\n  (define (f x) x)\n(define-library [c d".toList

theorem ofText_points_halfTyped :
    (⟨"[c d".toList, .space, ⟨2, 16⟩⟩ : Definition) ∈
      (Index.ofText halfTyped).symbols ++ (Index.ofText halfTyped).modules ∧
    (∃ t ∈ tokens halfTyped, offsetOf halfTyped (2 : Nat) (16 : Nat) = t.start ∧
      t.text <+: "[c d".toList ∧ "[c d".toList <+: halfTyped.drop t.start) ∧
    30 ≤ halfTyped.length ∧ offsetOf halfTyped (positionOf halfTyped 30).line
      (positionOf halfTyped 30).column = (30 : Nat) := by
  have hindex : (Index.ofText halfTyped).symbols ++ (Index.ofText halfTyped).modules =
      [⟨['f'], .function, ⟨1, 11⟩⟩, ⟨"(a b)".toList, .space, ⟨0, 15⟩⟩,
        ⟨"[c d".toList, .space, ⟨2, 16⟩⟩] := by decide +kernel
  have hmem : (⟨"[c d".toList, .space, ⟨2, 16⟩⟩ : Definition) ∈
      (Index.ofText halfTyped).symbols ++ (Index.ofText halfTyped).modules := by
    rw [hindex]
    exact List.mem_cons_of_mem _ (List.mem_cons_of_mem _ List.mem_cons_self)
  have hlength : 30 ≤ halfTyped.length := by decide +kernel
  obtain ⟨hdefinitions, hoffsets⟩ := ofText_points halfTyped
  exact ⟨hmem, hdefinitions _ hmem, hlength, hoffsets 30 hlength⟩

end LiveScheme.Buffer
