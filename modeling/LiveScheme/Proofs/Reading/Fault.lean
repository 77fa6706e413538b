import LiveScheme.Proofs.Reading.Prefix

/-!
# Texts that the reader faults on

Reading a text ends with its data or with a reading error, but for one case: the hexadecimal code
point of a character or of a string escape may be no numeral or no character. The fault arises at
the token with the escape, so text that follows on another line cannot mend it.
-/

namespace LiveScheme

open Text

namespace Lexed

/-- The tokens of whole lines are the first tokens of a text that goes on. -/
theorem tokens_prefix (total total' : Nat) {as : List Char} (ha : AtLineEnd as)
    (bs : List Char) :
    (scanFrom total as).tokens <+: (scanFrom total' (as ++ bs)).tokens := by
  fun_induction scanFrom total as with
  | case1 cs h => exact List.nil_prefix
  | case2 cs rest h ih =>
    have hscan := scan_trimStart_append ha (by rw [h]; rfl) bs
    rw [h] at hscan
    rw [scanFrom_of_skipped hscan]
    exact ih (atLineEnd_rest ha (by rw [h]; rfl))
  | case3 cs t rest h ih =>
    have hscan := scan_trimStart_append ha (by rw [h]; rfl) bs
    rw [h] at hscan
    rw [scanFrom_of_token hscan]
    exact (List.prefix_append_right_inj [t]).mpr (ih (atLineEnd_rest ha (by rw [h]; rfl)))
  | case4 cs gap h => exact List.nil_prefix
  | case5 cs h => exact List.nil_prefix

/-- Scanning never faults: a text ends inside a construct, or behind a backslash. -/
theorem failure_ne_fault (total : Nat) (cs : List Char) (f : Fault) :
    (scanFrom total cs).failure ≠ some (.fault f) := by
  fun_induction scanFrom total cs with
  | case1 cs h => exact fun h => by cases h
  | case2 cs rest h ih => exact ih
  | case3 cs t rest h ih => exact ih
  | case4 cs gap h => exact fun h => by cases h
  | case5 cs h => exact fun h => by cases h

end Lexed

namespace Atom

/-- The text has an escape whose hexadecimal code point faults. -/
def HasBadEscape (cs : List Char) (f : Fault) : Prop :=
  ∃ digits, 'x' :: digits <:+: cs ∧ ofHex digits = .error f

theorem HasBadEscape.mono {cs ds : List Char} {f : Fault} (h : HasBadEscape cs f)
    (hcs : cs <:+: ds) : HasBadEscape ds f := by
  obtain ⟨digits, hdigits, hf⟩ := h
  exact ⟨digits, hdigits.trans hcs, hf⟩

theorem hasBadEscape_of_char {cs : List Char} {f : Fault} (h : char cs = .error (.fault f)) :
    HasBadEscape cs f := by
  unfold char at h
  split at h
  · cases h
  split at h
  · cases h
  split at h
  · next digits _ _ =>
    cases hhex : ofHex digits with
    | ok c => rw [hhex] at h; cases h
    | error e =>
      rw [hhex] at h
      cases h
      exact ⟨digits, List.infix_rfl, hhex⟩
  · cases h

theorem infix_of_splitSemicolon {cs digits rest : List Char}
    (h : splitSemicolon cs = some (digits, rest)) : digits <+: cs ∧ rest <:+ cs := by
  unfold splitSemicolon at h
  split at h
  · cases h
  · next c rest heq =>
    cases h
    refine ⟨List.takeWhile_prefix _, ?_⟩
    exact (List.suffix_cons c rest).trans (heq ▸ List.dropWhile_suffix _)

theorem error_of_bind {α β : Type} {x : Except Fault α} {k : α → β} {f : Fault}
    (h : (x >>= fun a => pure (k a)) = .error f) : x = .error f := by
  cases x with
  | ok a => cases h
  | error e => cases h; rfl

theorem hasBadEscape_of_unescape {cs : List Char} {f : Fault} (h : unescape cs = .error f) :
    HasBadEscape cs f := by
  fun_induction unescape cs with
  | case1 rest digits more hsplit ih =>
    obtain ⟨hdigits, hmore⟩ := infix_of_splitSemicolon hsplit
    have hrest : rest <:+ '\\' :: 'x' :: rest := List.suffix_append ['\\', 'x'] rest
    cases hhex : ofHex digits with
    | error e =>
      rw [hhex] at h
      cases h
      refine ⟨digits, ?_, hhex⟩
      have hcons : 'x' :: digits <+: 'x' :: rest := (List.prefix_cons_inj 'x').mpr hdigits
      exact hcons.isInfix.trans (List.suffix_cons '\\' _).isInfix
    | ok c =>
      rw [hhex] at h
      exact (ih (error_of_bind h)).mono (hmore.trans hrest).isInfix
  | case2 rest hsplit ih =>
    exact (ih (error_of_bind h)).mono (List.suffix_append ['\\', 'x'] rest).isInfix
  | case3 rest ih =>
    refine (ih h).mono (List.IsSuffix.isInfix ?_)
    exact (List.dropWhile_suffix _).trans (List.suffix_append ['\\', '\n'] rest)
  | case4 c rest _ _ ih =>
    exact (ih (error_of_bind h)).mono (List.suffix_append ['\\', c] rest).isInfix
  | case5 c rest _ _ _ ih =>
    exact (ih (error_of_bind h)).mono (List.suffix_cons c rest).isInfix
  | case6 => cases h

end Atom

namespace Datum

namespace Reading

theorem word_ne_fault (cs : List Char) (f : Fault) : Atom.word cs ≠ .error (.fault f) := by
  unfold Atom.word
  repeat' split
  all_goals exact fun h => by cases h

theorem infix_of_inner (cs : List Char) : inner cs <:+: cs :=
  (List.dropLast_prefix _).isInfix.trans (List.drop_suffix 1 cs).isInfix

theorem hasBadEscape_of_denoted? {t : Token} {f : Fault}
    (h : t.denoted? = some (.error (.fault f))) : Atom.HasBadEscape t.text f := by
  obtain ⟨kind, text⟩ := t
  cases kind with
  | datumComment | quote | unquote | vectorOpen | listOpen | close | bool => cases h
  | text =>
    simp only [Token.denoted?] at h
    cases hbody : Atom.unescape (inner text) with
    | ok body => rw [hbody] at h; cases h
    | error e =>
      rw [hbody] at h
      cases h
      exact (Atom.hasBadEscape_of_unescape hbody).mono (infix_of_inner text)
  | char =>
    simp only [Token.denoted?] at h
    cases hchar : Atom.char (text.drop 2) with
    | ok c => rw [hchar] at h; cases h
    | error e =>
      rw [hchar] at h
      cases h
      exact (Atom.hasBadEscape_of_char hchar).mono (List.drop_suffix 2 text).isInfix
  | word =>
    simp only [Token.denoted?] at h
    split at h
    · cases h
    · exact absurd (Option.some.inj h) (word_ne_fault text f)

/-- A fault comes from the token alone. -/
theorem denoted?_of_fault {r : Reading} {t : Token} {f : Fault}
    (h : step r t = .error (.fault f)) : t.denoted? = some (.error (.fault f)) :=
  (step_error_cases h).resolve_right nofun

theorem hasBadEscape_of_run {r : Reading} {ts : List Token} {f : Fault}
    (h : run r ts = .error (.fault f)) : ∃ t ∈ ts, Atom.HasBadEscape t.text f := by
  obtain ⟨t, ht, r', hstep⟩ := exists_of_run_error h
  exact ⟨t, ht, hasBadEscape_of_denoted? (denoted?_of_fault hstep)⟩

end Reading

theorem readAll_of_run_error {source : String} {e : ReadError}
    (h : Reading.start.run (Lexed.ofText source.toList).tokens = .error e) :
    readAll source = .error e := by
  simp only [readAll, h]
  rfl

/-- A fault comes from a token. -/
theorem readAll_eq_fault {source : String} {f : Fault} :
    readAll source = .error (.fault f) ↔
      Reading.start.run (Lexed.ofText source.toList).tokens = .error (.fault f) := by
  refine ⟨fun h => ?_, readAll_of_run_error⟩
  cases hr : Reading.start.run (Lexed.ofText source.toList).tokens with
  | error e =>
    rw [readAll_of_run_error hr] at h
    cases h
    rfl
  | ok r =>
    rw [readAll_of_run hr] at h
    unfold Reading.result at h
    split at h
    · next e _ hfailure =>
      cases h
      exact absurd hfailure (Lexed.failure_ne_fault _ _ f)
    · cases h
    · cases h

/-- Only a hexadecimal code point that is no numeral or no character makes the reader fault. -/
theorem hasBadEscape_of_readAll {source : String} {f : Fault}
    (h : readAll source = .error (.fault f)) :
    ∃ t ∈ (Lexed.ofText source.toList).tokens, Atom.HasBadEscape t.text f :=
  Reading.hasBadEscape_of_run (readAll_eq_fault.mp h)

theorem hasBadEscape_of_readOne {source : String} {f : Fault}
    (h : readOne source = .error (.fault f)) :
    ∃ t ∈ (Lexed.ofText source.toList).tokens, Atom.HasBadEscape t.text f := by
  unfold readOne at h
  cases hr : Reading.start.runToFirst (Lexed.ofText source.toList).tokens with
  | error e =>
    simp only [hr] at h
    cases h
    exact Reading.hasBadEscape_of_run (Reading.run_of_runToFirst_error hr)
  | ok r =>
    simp only [hr] at h
    obtain ⟨done, stack⟩ := r
    cases done with
    | cons d ds => cases h
    | nil =>
      cases hfailure : (Lexed.ofText source.toList).failure with
      | none => simp only [hfailure] at h; cases h
      | some e =>
        simp only [hfailure] at h
        cases h
        exact absurd hfailure (Lexed.failure_ne_fault _ _ f)

/-- Whatever follows whole lines that the reader faults on, it faults on them again. -/
theorem readAll_fault_append {front : String} (hl : AtLineEnd front.toList) {f : Fault}
    (h : readAll front = .error (.fault f)) (rest : String) :
    readAll (front ++ rest) = .error (.fault f) := by
  rw [readAll_eq_fault] at h ⊢
  rw [String.toList_append]
  obtain ⟨more, hmore⟩ := Lexed.tokens_prefix front.toList.length
    (front.toList ++ rest.toList).length hl rest.toList
  rw [Lexed.ofText, ← hmore, Reading.run_append]
  rw [Lexed.ofText] at h
  rw [h]
  rfl

end Datum

end LiveScheme
