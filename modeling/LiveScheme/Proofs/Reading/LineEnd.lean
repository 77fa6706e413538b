import LiveScheme.Proofs.Reading.Fault
import LiveScheme.Proofs.Reading.Splice

/-!
# The end of a line behind a text

A request is checked without the line end that is sent behind it. The line end is a blank, so it
changes next to nothing: the tokens stay as they are, and what was open stays open. There are two
exceptions. A text that ends with the beginning of a character has the line end for its character,
which is another datum in the same place; and a backslash at the end of an open string, which is an
error by itself, escapes the line end, so that the string is open still.
-/

namespace LiveScheme

open Text

namespace Token

/-- A lexeme in a text that goes on with the end of its line. -/
def Lexeme.feed : Lexeme → Lexeme
  | ended => ended
  | skipped rest => skipped (rest ++ ['\n'])
  | token t rest => token t (rest ++ ['\n'])
  | gap missing => gap missing
  | dangling => gap .text

theorem feed_of_extend {lexeme : Lexeme} (h : lexeme.rest?.isSome = true) :
    lexeme.extend ['\n'] = lexeme.feed := by
  cases lexeme with
  | skipped rest => rfl
  | token t rest => rfl
  | _ => cases h

theorem afterBlock_append_feed {depth : Nat} {cs : List Char} (h : afterBlock depth cs = none) :
    afterBlock depth (cs ++ ['\n']) = none := by
  fun_induction afterBlock depth cs with
  | case1 => rfl
  | case2 depth rest ih => simpa [afterBlock] using ih h
  | case3 rest => cases h
  | case4 rest depth ih => simpa [afterBlock] using ih h
  | case5 depth c rest hopen hclose ih =>
    rw [← ih h, List.cons_append, afterBlock]
    · rintro rest' rfl heq
      cases rest with
      | nil => cases heq
      | cons d rest => cases heq; exact hopen rest rfl rfl
    · rintro rest' rfl heq
      cases rest with
      | nil => cases heq
      | cons d rest => cases heq; exact hclose rest rfl rfl

/-- An open string stays open, also when its last character was a backslash. -/
theorem scanText_append_feed {body cs : List Char} (h : (scanText body cs).rest? = none) :
    scanText body (cs ++ ['\n']) = .gap .text := by
  fun_induction scanText body cs with
  | case1 => rfl
  | case2 => rfl
  | case3 body c more ih => simpa [scanText] using ih h
  | case4 body rest => cases h
  | case5 body c rest hslash hquote ih =>
    rw [← ih h, List.cons_append, scanText, if_neg hquote]
    exact hslash

theorem scanText_feed {body cs : List Char} (h : (scanText body cs).rest? = none) :
    (scanText body cs).feed = .gap .text := by
  fun_induction scanText body cs with
  | case1 => rfl
  | case2 => rfl
  | case3 body c more ih => exact ih h
  | case4 body rest => cases h
  | case5 body c rest _ _ ih => exact ih h

theorem open_of_scanHash {cs : List Char} (h : (scanHash cs).rest? = none) :
    ∃ more, cs = '|' :: more ∧ afterBlock 0 more = none := by
  have hword : ∀ c ds, (scanWord c ds).rest? ≠ none := fun c ds => by
    unfold scanWord
    dsimp only
    split <;> exact Option.some_ne_none _
  unfold scanHash at h
  split at h
  · next more =>
    cases hblock : afterBlock 0 more with
    | some left => rw [hblock] at h; cases h
    | none => exact ⟨more, rfl, hblock⟩
  · cases h
  · cases h
  · cases h
  · exact absurd h (hword _ _)

/-- Only block comments and strings can be open where a text ends. -/
theorem open_of_scan {c : Char} {cs : List Char} (h : (scan (c :: cs)).rest? = none) :
    (∃ more, c :: cs = '#' :: '|' :: more ∧ afterBlock 0 more = none) ∨
      c = '\x22' ∧ (scanText [] cs).rest? = none := by
  have hword : ∀ ds, (scanWord c ds).rest? ≠ none := fun ds => by
    unfold scanWord
    dsimp only
    split <;> exact Option.some_ne_none _
  simp only [scan] at h
  split at h
  · cases h
  split at h
  · next hc =>
    obtain ⟨more, rfl, hblock⟩ := open_of_scanHash h
    exact .inl ⟨more, by rw [hc], hblock⟩
  split at h
  · cases h
  split at h
  · unfold scanComma at h
    split at h <;> cases h
  split at h
  · cases h
  split at h
  · cases h
  split at h
  · next hc => exact .inr ⟨hc, h⟩
  · exact absurd h (hword cs)

/-- What begins a text is the same in front of the end of its line, but for the beginning of a
character. -/
theorem scan_append_feed {c : Char} {cs : List Char} (hbare : c :: cs ≠ ['#', '\\']) :
    scan (c :: cs ++ ['\n']) = (scan (c :: cs)).feed := by
  cases hrest : (scan (c :: cs)).rest? with
  | none =>
    rcases open_of_scan hrest with ⟨more, heq, hblock⟩ | ⟨rfl, htext⟩
    · have hmore : scanHash ('|' :: (more ++ ['\n'])) = .gap .blockComment := by
        simp [scanHash, afterBlock_append_feed hblock]
      have hscan : scanHash ('|' :: more) = .gap .blockComment := by
        simp [scanHash, hblock]
      rw [heq]
      change scanHash ('|' :: (more ++ ['\n'])) = (scanHash ('|' :: more)).feed
      rw [hmore, hscan, Lexeme.feed]
    · change scanText [] (cs ++ ['\n']) = (scanText [] cs).feed
      rw [scanText_append_feed htext, scanText_feed htext]
  | some rest =>
    have hsome : (scan (c :: cs)).rest?.isSome = true := by rw [hrest]; rfl
    rw [← feed_of_extend hsome]
    by_cases hcomment : c = ';' ∧ '\n' ∉ cs
    · obtain ⟨rfl, hmem⟩ := hcomment
      have hall : ∀ d ∈ cs, (d != '\n') = true := fun d hd => by
        rw [bne_iff_ne]
        rintro rfl
        exact hmem hd
      change Lexeme.skipped ((cs ++ ['\n']).dropWhile (· != '\n')) =
        Lexeme.skipped (cs.dropWhile (· != '\n') ++ ['\n'])
      rw [List.dropWhile_append_of_pos hall, List.dropWhile_eq_nil_iff.mpr hall]
      rfl
    · exact scan_extend (.inr (atGap_cons (c := '\n') (by decide) []))
        (fun hc => by_contra fun hmem => hcomment ⟨hc, hmem⟩) hbare hsome

end Token

namespace Lexed

/-- The scanned text `l` and the same text with a line end behind it. -/
inductive Fed : Lexed → Lexed → Prop
  | same {ts : List Token} {failure : Option ReadError} :
    (∀ i c, failure ≠ some (.unexpectedChar i c)) → Fed ⟨ts, failure⟩ ⟨ts, failure⟩
  | bare {front : List Token} :
    Fed ⟨front ++ [⟨.word, ['#', '\\']⟩], none⟩ ⟨front ++ [⟨.char, ['#', '\\', '\n']⟩], none⟩
  | escape {ts : List Token} {i : Nat} {c : Char} :
    Fed ⟨ts, some (.unexpectedChar i c)⟩ ⟨ts, some (.incomplete .text)⟩

theorem Fed.prepend {l l' : Lexed} (h : Fed l l') (t : Token) :
    Fed (prepend [t] l) (prepend [t] l') := by
  cases h with
  | same hfailure => exact .same hfailure
  | bare => exact @Fed.bare (t :: _)
  | escape => exact .escape

theorem trimStart_append_feed {cs : List Char} (h : trimStart cs = []) :
    trimStart (cs ++ ['\n']) = [] := by
  rw [trimStart_append_of_blank h]
  rfl

theorem trimStart_ne_bare {cs : List Char} {lexeme : Token.Lexeme}
    (h : Token.scan (trimStart cs) = lexeme)
    (hword : lexeme ≠ .token ⟨.word, ['#', '\\']⟩ []) : trimStart cs ≠ ['#', '\\'] := by
  intro hbare
  rw [hbare] at h
  exact hword h.symm

/-- The end of a line behind a text whose first token is scanned. -/
theorem scan_trimStart_append_feed {cs : List Char} {lexeme : Token.Lexeme}
    (h : Token.scan (trimStart cs) = lexeme) (hended : lexeme ≠ .ended)
    (hbare : trimStart cs ≠ ['#', '\\']) :
    Token.scan (trimStart (cs ++ ['\n'])) = lexeme.feed := by
  subst h
  cases htrim : trimStart cs with
  | nil =>
    rw [htrim] at hended
    exact absurd rfl hended
  | cons c more =>
    rw [trimStart_append_of_ne (by simp [htrim]), htrim]
    exact Token.scan_append_feed (htrim ▸ hbare)

/-- The end of a line behind a text, token by token. -/
theorem fed_append_feed (total total' : Nat) (cs : List Char) :
    Fed (scanFrom total cs) (scanFrom total' (cs ++ ['\n'])) := by
  have hblank : ∀ total, scanFrom total [] = ⟨[], none⟩ := fun _ => scanFrom_blank (by simp)
  fun_induction scanFrom total cs with
  | case1 cs h =>
    have hended : Token.scan (trimStart (cs ++ ['\n'])) = .ended := by
      rw [trimStart_append_feed (trimStart_of_ended h)]
      rfl
    rw [scanFrom_of_ended hended]
    exact .same (fun i c h => by cases h)
  | case2 cs rest h ih =>
    rw [scanFrom_of_skipped (scan_trimStart_append_feed h (by simp)
      (trimStart_ne_bare h (by simp)))]
    exact ih
  | case3 cs t rest h ih =>
    by_cases hbare : trimStart cs = ['#', '\\']
    · have hchar : Token.scan (trimStart (cs ++ ['\n'])) =
          .token ⟨.char, ['#', '\\', '\n']⟩ [] := by
        rw [trimStart_append_of_ne (by simp [hbare]), hbare]
        rfl
      have hword : Token.scan (trimStart cs) = .token ⟨.word, ['#', '\\']⟩ [] := by
        rw [hbare]
        rfl
      rw [hword] at h
      cases h
      rw [scanFrom_of_token hchar, hblank, hblank]
      exact @Fed.bare []
    · rw [scanFrom_of_token (scan_trimStart_append_feed h (by simp) hbare), cons_eq_prepend]
      exact ih.prepend t
  | case4 cs gap h =>
    rw [scanFrom_of_gap (scan_trimStart_append_feed h (by simp)
      (trimStart_ne_bare h (by simp)))]
    exact .same (fun i c h => by cases h)
  | case5 cs h =>
    rw [scanFrom_of_gap (scan_trimStart_append_feed h (by simp)
      (trimStart_ne_bare h (by simp)))]
    exact .escape

/-- A character is unexpected only where the text ends with a backslash. -/
theorem getLast?_of_unexpectedChar {total : Nat} {cs : List Char} {i : Nat} {c : Char}
    (h : (scanFrom total cs).failure = some (.unexpectedChar i c)) : cs.getLast? = some '\\' := by
  have hlast : ∀ {cs ds : List Char} {d : Char}, ds <:+ cs → ds.getLast? = some d →
      cs.getLast? = some d := by
    rintro cs ds d ⟨front, rfl⟩ hd
    rw [List.getLast?_append, hd]
    rfl
  have htrim : ∀ cs, trimStart cs <:+ cs := fun cs => List.dropWhile_suffix _
  fun_induction scanFrom total cs with
  | case1 cs _ => cases h
  | case2 cs rest hskipped ih =>
    exact hlast ((Token.rest_suffix (by rw [hskipped]; rfl)).trans (htrim cs)) (ih h)
  | case3 cs t rest htoken ih =>
    exact hlast ((Token.rest_suffix (by rw [htoken]; rfl)).trans (htrim cs)) (ih h)
  | case4 cs gap _ => cases h
  | case5 cs hdangling =>
    rcases Token.scan_cases (trimStart cs) with hnil | ⟨gap, hgap⟩ | hrest | ⟨-, hback⟩
    · rw [hnil] at hdangling; cases hdangling
    · rw [hgap] at hdangling; cases hdangling
    · rw [hdangling] at hrest; cases hrest
    · exact hlast (htrim cs) hback

end Lexed

/-- An error about where a text ends, not about one of its tokens. -/
def ReadError.isAtEnd : ReadError → Bool
  | .incomplete _ | .unexpectedChar .. => true
  | _ => false

namespace Datum

namespace Reading

variable {r : Reading} {t : Token} {e : ReadError}

theorem isAtEnd_of_char {cs : List Char} (h : Atom.char cs = .error e) : e.isAtEnd = false := by
  unfold Atom.char at h
  repeat' split at h
  · cases h
  · cases h
  · next digits _ _ =>
    cases hhex : Atom.ofHex digits with
    | ok c => rw [hhex] at h; cases h
    | error f => rw [hhex] at h; cases h; rfl
  · cases h
    rfl

theorem isAtEnd_of_word {cs : List Char} (h : Atom.word cs = .error e) : e.isAtEnd = false := by
  unfold Atom.word at h
  repeat' split at h
  all_goals cases h
  rfl

theorem isAtEnd_of_denoted? (h : t.denoted? = some (.error e)) : e.isAtEnd = false := by
  obtain ⟨kind, text⟩ := t
  cases kind with
  | datumComment | quote | unquote | vectorOpen | listOpen | close | bool => cases h
  | text =>
    simp only [Token.denoted?] at h
    cases hbody : Atom.unescape (inner text) with
    | ok body => rw [hbody] at h; cases h
    | error f => rw [hbody] at h; cases h; rfl
  | char =>
    simp only [Token.denoted?] at h
    cases hchar : Atom.char (text.drop 2) with
    | ok c => rw [hchar] at h; cases h
    | error e' => rw [hchar] at h; cases h; exact isAtEnd_of_char hchar
  | word =>
    simp only [Token.denoted?] at h
    split at h
    · cases h
    · exact isAtEnd_of_word (Option.some.inj h)

theorem isAtEnd_of_isMisplaced (h : e.isMisplaced = true) : e.isAtEnd = false := by
  cases e <;> first | rfl | cases h

theorem isAtEnd_of_run {ts : List Token} (h : run r ts = .error e) : e.isAtEnd = false := by
  obtain ⟨t, -, r', hstep⟩ := exists_of_run_error h
  exact (step_error_cases hstep).elim isAtEnd_of_denoted? isAtEnd_of_isMisplaced

/-- What is missing behind a datum does not depend on the datum. -/
theorem gap?_deliver (done : List Datum) (d e : Datum) (stack : List Open) :
    gap? (deliver done d stack).stack = gap? (deliver done e stack).stack := by
  induction stack generalizing d e with
  | nil => rfl
  | cons o rest ih =>
    cases o with
    | quoted name => exact ih _ _
    | wanted => exact ih _ _
    | _ => rfl

/-- The beginning of a character and the end of a line as a character stand for a datum each, where
a datum can stand. -/
theorem step_bare (r : Reading) :
    (∃ d e, step r ⟨.word, ['#', '\\']⟩ = .ok (deliver r.done d r.stack) ∧
      step r ⟨.char, ['#', '\\', '\n']⟩ = .ok (deliver r.done e r.stack)) ∨
    ∃ error, step r ⟨.word, ['#', '\\']⟩ = .error error ∧
      step r ⟨.char, ['#', '\\', '\n']⟩ = .error error := by
  by_cases hs : Takes r.stack
  · exact .inl ⟨.sym "#\\", .char '\n', step_of_takes hs _, step_of_takes hs _⟩
  · obtain ⟨done, stack⟩ := r
    cases stack with
    | nil => exact absurd trivial hs
    | cons o rest =>
      cases o with
      | sealed items tail => exact .inr ⟨.unclosedTail, rfl, rfl⟩
      | _ => exact absurd trivial hs

end Reading

/-- The scanner alone finds unexpected characters. -/
theorem failure_of_unexpectedChar {text : String} {i : Nat} {c : Char}
    (h : readAll text = .error (.unexpectedChar i c)) :
    (Lexed.ofText text.toList).failure = some (.unexpectedChar i c) := by
  cases hrun : Reading.start.run (Lexed.ofText text.toList).tokens with
  | error e =>
    rw [readAll_of_run_error hrun] at h
    cases h
    cases Reading.isAtEnd_of_run hrun
  | ok r =>
    rw [readAll_of_run hrun] at h
    unfold Reading.result at h
    split at h
    · next e _ hfailure =>
      cases h
      exact hfailure
    · cases h
    · cases h

theorem getLast?_of_unexpectedChar {text : String} {i : Nat} {c : Char}
    (h : readAll text = .error (.unexpectedChar i c)) : text.toList.getLast? = some '\\' :=
  Lexed.getLast?_of_unexpectedChar (failure_of_unexpectedChar h)

/-- A character in place of the beginning of one changes nothing but the datum. -/
theorem readAll_bare {text text' : String} {front : List Token}
    (h : Lexed.ofText text.toList = ⟨front ++ [⟨.word, ['#', '\\']⟩], none⟩)
    (h' : Lexed.ofText text'.toList = ⟨front ++ [⟨.char, ['#', '\\', '\n']⟩], none⟩)
    (e : ReadError) : readAll text' = .error e ↔ readAll text = .error e := by
  have hends : ∀ {text : String} {t : Token}, Lexed.ofText text.toList = ⟨front ++ [t], none⟩ →
      ∀ {error}, Reading.start.run (front ++ [t]) = .error error →
      readAll text = .error error := by
    intro text t h error hrun
    exact readAll_of_run_error (by rw [h]; exact hrun)
  have hdone : ∀ {text : String} {t : Token}, Lexed.ofText text.toList = ⟨front ++ [t], none⟩ →
      ∀ {r}, Reading.start.run (front ++ [t]) = .ok r → readAll text = r.result none := by
    intro text t h r hrun
    rw [readAll_of_run (by rw [h]; exact hrun), h]
  cases hfront : Reading.start.run front with
  | error error =>
    have hrun : ∀ t, Reading.start.run (front ++ [t]) = .error error := fun t => by
      rw [Reading.run_append, hfront]
      rfl
    rw [hends h (hrun _), hends h' (hrun _)]
  | ok r =>
    have hrun : ∀ t, Reading.start.run (front ++ [t]) = r.run [t] := fun t => by
      rw [Reading.run_append, hfront]
      rfl
    rcases Reading.step_bare r with ⟨d, d', hd, hd'⟩ | ⟨error, herror, herror'⟩
    · rw [hdone h ((hrun _).trans (Reading.run_cons_of_step hd)),
        hdone h' ((hrun _).trans (Reading.run_cons_of_step hd'))]
      simp only [Reading.result, Reading.gap?_deliver r.done d' d]
      cases Reading.gap? (Reading.deliver r.done d r.stack).stack with
      | none => constructor <;> intro h <;> cases h
      | some gap => rfl
    · have hfails : ∀ {t}, Reading.step r t = .error error → r.run [t] = .error error := by
        intro t ht
        rw [Reading.run, ht]
        rfl
      rw [hends h ((hrun _).trans (hfails herror)), hends h' ((hrun _).trans (hfails herror'))]

/-- The error of a text is that of its line, but for a backslash at the end of an open string, which
escapes the end of the line. -/
theorem readAll_append_feed (text : String) (e : ReadError) :
    readAll (text ++ "\n") = .error e ↔
      readAll text = .error e ∧ (∀ i c, e ≠ .unexpectedChar i c) ∨
        e = .incomplete .text ∧ ∃ i c, readAll text = .error (.unexpectedChar i c) := by
  have hlist : (text ++ "\n").toList = text.toList ++ ['\n'] := by
    rw [String.toList_append]
    rfl
  have hfed := Lexed.fed_append_feed text.toList.length (text ++ "\n").toList.length text.toList
  rw [← hlist] at hfed
  change Lexed.Fed (Lexed.ofText text.toList) (Lexed.ofText (text ++ "\n").toList) at hfed
  have hsame : (∀ e, readAll (text ++ "\n") = .error e ↔ readAll text = .error e) →
      (∀ i c, readAll text ≠ .error (.unexpectedChar i c)) →
      (readAll (text ++ "\n") = .error e ↔
        readAll text = .error e ∧ (∀ i c, e ≠ .unexpectedChar i c) ∨
          e = .incomplete .text ∧ ∃ i c, readAll text = .error (.unexpectedChar i c)) := by
    intro hiff hne
    rw [hiff]
    refine ⟨fun h => .inl ⟨h, fun i c heq => hne i c (heq ▸ h)⟩, ?_⟩
    rintro (⟨h, -⟩ | ⟨-, i, c, h⟩)
    · exact h
    · exact absurd h (hne i c)
  generalize hl : Lexed.ofText text.toList = l at hfed
  generalize hl' : Lexed.ofText (text ++ "\n").toList = l' at hfed
  cases hfed with
  | @same ts failure hfailure =>
    have heq : readAll (text ++ "\n") = readAll text := by
      unfold readAll
      rw [hl, hl']
    refine hsame (fun e => by rw [heq]) fun i c h => hfailure i c ?_
    rw [← failure_of_unexpectedChar h, hl]
  | @bare front =>
    refine hsame (readAll_bare hl hl') fun i c h => ?_
    have hfailure := failure_of_unexpectedChar h
    rw [hl] at hfailure
    cases hfailure
  | @escape ts i c =>
    cases hrun : Reading.start.run ts with
    | error error =>
      have hread : Datum.readAll text = .error error :=
        readAll_of_run_error (by rw [hl]; exact hrun)
      have hread' : Datum.readAll (text ++ "\n") = .error error :=
        readAll_of_run_error (by rw [hl']; exact hrun)
      refine hsame (fun e => by rw [hread, hread']) fun i c h => ?_
      rw [hread] at h
      cases h
      cases Reading.isAtEnd_of_run hrun
    | ok r =>
      have hread : readAll text = .error (.unexpectedChar i c) := by
        rw [readAll_of_run (by rw [hl]; exact hrun), hl, Reading.result]
      have hread' : readAll (text ++ "\n") = .error (.incomplete .text) := by
        rw [readAll_of_run (by rw [hl']; exact hrun), hl', Reading.result]
      rw [hread, hread']
      refine ⟨fun h => ?_, ?_⟩
      · cases h
        exact .inr ⟨rfl, i, c, rfl⟩
      · rintro (⟨h, hne⟩ | ⟨rfl, -⟩)
        · cases h
          exact absurd rfl (hne i c)
        · rfl

end Datum

end LiveScheme
