import LiveScheme.Buffer.Scanner
import LiveScheme.Proofs.Reading.Prefix

/-!
# Pieces and tokens

A buffer is cut into pieces by their lengths, and a text is read lexeme by lexeme. At every
character that begins a token both cut alike, so the piece is the token, and both skip blanks and
line comments alike. A block comment ends at the first closing mark for a buffer, but at the
matching one for a reader. Where no block comment opens inside another one a buffer therefore has
the tokens that are read, whatever else stands in it.
-/

namespace LiveScheme

open Text Token

namespace Token

/-- The ways in which a token can begin with the character `c` in front of `rest`. -/
inductive Begins : Char → List Char → Token → List Char → Prop
  | datumComment (left : List Char) : Begins '#' (';' :: left) ⟨.datumComment, ['#', ';']⟩ left
  | vectorOpen (left : List Char) : Begins '#' ('(' :: left) ⟨.vectorOpen, ['#', '(']⟩ left
  | char {c : Char} {more left : List Char} {t : Token} : scanChar c more = .token t left →
    Begins '#' ('\\' :: c :: more) t left
  | quote {c : Char} (left : List Char) : c = '\x27' ∨ c = '\x60' → Begins c left ⟨.quote, [c]⟩ left
  | unquoteAt (left : List Char) : Begins ',' ('@' :: left) ⟨.unquote, [',', '@']⟩ left
  | unquote (left : List Char) : left.head? ≠ some '@' → Begins ',' left ⟨.unquote, [',']⟩ left
  | listOpen {c : Char} (left : List Char) : c = '(' ∨ c = '[' →
    Begins c left ⟨.listOpen, [c]⟩ left
  | close {c : Char} (left : List Char) : c = ')' ∨ c = ']' → Begins c left ⟨.close, [c]⟩ left
  | text {rest left : List Char} {t : Token} : scanText [] rest = .token t left →
    Begins '\x22' rest t left
  | word {c : Char} {rest left : List Char} {t : Token} : isWordChar c = true →
    (c = '#' → rest.head? ≠ some '|' ∧ rest.head? ≠ some ';' ∧ rest.head? ≠ some '(' ∧
      ∀ d more, rest ≠ '\\' :: d :: more) →
    scanWord c rest = .token t left → Begins c rest t left

theorem begins_of_scanHash {rest left : List Char} {t : Token}
    (h : scanHash rest = .token t left) : Begins '#' rest t left := by
  unfold scanHash at h
  split at h
  · split at h <;> cases h
  · cases h
    exact .datumComment _
  · cases h
    exact .vectorOpen _
  · exact .char h
  · next hbar hsemi hopen hslash =>
    have hhead : ∀ d, (∀ more, rest ≠ d :: more) → rest.head? ≠ some d := by
      intro d hne heq
      obtain ⟨more, hmore⟩ := List.head?_eq_some_iff.mp heq
      exact hne more hmore
    exact .word (by decide) (fun _ => ⟨hhead _ hbar, hhead _ hsemi, hhead _ hopen, hslash⟩) h

theorem begins_of_scanComma {rest left : List Char} {t : Token}
    (h : scanComma rest = .token t left) : Begins ',' rest t left := by
  unfold scanComma at h
  split at h
  · cases h
    exact .unquoteAt _
  · next hat =>
    cases h
    refine .unquote _ fun heq => ?_
    obtain ⟨more, rfl⟩ := List.head?_eq_some_iff.mp heq
    exact hat more rfl

theorem begins_of_scan {c : Char} {rest left : List Char} {t : Token} (hc : isBlank c = false)
    (h : scan (c :: rest) = .token t left) : Begins c rest t left := by
  simp only [scan, Bool.or_eq_true, decide_eq_true_eq] at h
  split at h
  · cases h
  split at h
  · next hhash =>
    subst hhash
    exact begins_of_scanHash h
  split at h
  · next hquote =>
    cases h
    exact .quote _ hquote
  split at h
  · next hcomma =>
    subst hcomma
    exact begins_of_scanComma h
  split at h
  · next hopen =>
    cases h
    exact .listOpen _ hopen
  split at h
  · next hclose =>
    cases h
    exact .close _ hclose
  split at h
  · next htext =>
    subst htext
    exact .text h
  · next hsemi hhash hquote hcomma hopen hclose htext =>
    refine .word ?_ (fun heq => absurd heq hhash) h
    simp_all [isWordChar, isBreak]

end Token

namespace Scanner

/-- A truth value reaches to a break, and a word to the first character that is no word character:
in front of a break these are the same. -/
theorem scanWord_length {c : Char} {cs left : List Char} {t : Token}
    (h : scanWord c cs = .token t left) : t.text.length = wordLength cs + 1 := by
  simp only [scanWord] at h
  split at h
  · next hbool =>
    cases h
    have hall := isWordChar_of_mem_boolWords (by simpa using hbool)
    have hword : cs.takeWhile isWordChar = cs.takeWhile fun d => !isBreak d := by
      rw [← List.takeWhile_eq_self_iff.mpr fun d hd => hall d (List.mem_cons_of_mem c hd),
        List.takeWhile_takeWhile]
      congr 1
      funext d
      by_cases hd : isWordChar d = true <;> simp [hd, isBreak_of_isWordChar]
    simp [wordLength, hword]
  · cases h
    simp [wordLength]

theorem scanChar_length {c : Char} {cs left : List Char} {t : Token}
    (h : scanChar c cs = .token t left) :
    t.text.length = (if isLetter c then 2 + (cs.takeWhile isLetterOrDigit).length else 2) + 1 := by
  simp only [scanChar] at h
  cases h
  by_cases hc : isLetter c = true
  · simp only [hc, if_true, List.length_cons]
    omega
  · simp [hc]

/-- A string that is read is closed. -/
theorem scanText_eq {body cs left : List Char} {t : Token} (h : scanText body cs = .token t left) :
    t.text = '\x22' :: body.reverse ++ cs.take (textLength cs) ∧ left = cs.drop (textLength cs) ∧
      Span.closesText (cs.take (textLength cs)) = true := by
  fun_induction scanText body cs with
  | case1 => cases h
  | case2 => cases h
  | case3 body c more ih => simpa [textLength, Span.closesText] using ih h
  | case4 body rest =>
    cases h
    simp [textLength, Span.closesText]
  | case5 body c rest hslash hquote ih =>
    have hlength : textLength (c :: rest) = textLength rest + 1 := by
      rw [textLength, if_neg hquote]
      exact hslash
    rw [hlength]
    simpa [Span.closesText, hquote] using ih h

/-- A word is as long for a buffer as it is for a reader. -/
theorem moreLength_of_word {c : Char} {rest : List Char} (hc : isWordChar c = true)
    (hhash : c = '#' → rest.head? ≠ some '|' ∧ rest.head? ≠ some ';' ∧ rest.head? ≠ some '(' ∧
      ∀ d more, rest ≠ '\\' :: d :: more) : moreLength c rest = wordLength rest := by
  by_cases heq : c = '#'
  · subst heq
    obtain ⟨hbar, hsemi, hopen, hslash⟩ := hhash rfl
    change hashLength rest = wordLength rest
    rw [hashLength]
    · rintro more rfl
      exact hbar rfl
    · rintro more rfl
      exact hsemi rfl
    · rintro more rfl
      exact hopen rfl
    · exact hslash
  · have hbreak := isBreak_of_isWordChar hc
    simp only [isWordChar, isBreak] at hc
    simp_all [moreLength]

/-- A token is the piece of a buffer that begins at the same character. -/
theorem piece_of_begins {c : Char} {rest left : List Char} {t : Token} (h : Begins c rest t left)
    (happ : c :: rest = t.text ++ left) :
    t.text = c :: rest.take (moreLength c rest) ∧ left = rest.drop (moreLength c rest) := by
  have hcut : t.text.length = moreLength c rest + 1 →
      t.text = c :: rest.take (moreLength c rest) ∧ left = rest.drop (moreLength c rest) := by
    intro hlength
    have htake := congrArg (List.take t.text.length) happ
    have hdrop := congrArg (List.drop t.text.length) happ
    rw [List.take_left, hlength] at htake
    rw [List.drop_left, hlength] at hdrop
    exact ⟨htake.symm, hdrop.symm⟩
  cases h with
  | datumComment => exact ⟨rfl, rfl⟩
  | vectorOpen => exact ⟨rfl, rfl⟩
  | char h => exact hcut (scanChar_length h)
  | quote _ hc => rcases hc with rfl | rfl <;> exact ⟨rfl, rfl⟩
  | unquoteAt => exact ⟨rfl, rfl⟩
  | unquote _ hat =>
    have hmore : moreLength ',' rest = 0 := if_neg hat
    simp [hmore]
  | listOpen _ hc => rcases hc with rfl | rfl <;> exact ⟨rfl, rfl⟩
  | close _ hc => rcases hc with rfl | rfl <;> exact ⟨rfl, rfl⟩
  | text h =>
    obtain ⟨htext, hleft, -⟩ := scanText_eq h
    exact ⟨htext, hleft⟩
  | word hc hhash h => exact hcut (by rw [scanWord_length h, moreLength_of_word hc hhash])

theorem scanWord_ne_skipped (c : Char) (cs left : List Char) : scanWord c cs ≠ .skipped left := by
  simp only [scanWord]
  split <;> simp

theorem scanText_ne_skipped (body cs left : List Char) : scanText body cs ≠ .skipped left := by
  fun_induction scanText body cs with
  | case1 => simp
  | case2 => simp
  | case3 body c more ih => exact ih
  | case4 body rest => simp
  | case5 body c rest _ _ ih => exact ih

/-- Only comments are skipped. -/
theorem comment_of_skipped {c : Char} {rest left : List Char}
    (h : scan (c :: rest) = .skipped left) :
    c = ';' ∧ left = rest.dropWhile (· != '\n') ∨
      ∃ more, c = '#' ∧ rest = '|' :: more ∧ afterBlock 0 more = some left := by
  simp only [scan] at h
  split at h
  · next hsemi =>
    cases h
    exact .inl ⟨hsemi, rfl⟩
  split at h
  · next hhash =>
    right
    unfold scanHash at h
    split at h
    · next more =>
      split at h
      · next hblock =>
        cases h
        exact ⟨more, hhash, rfl, hblock⟩
      · cases h
    · cases h
    · cases h
    · cases h
    · exact absurd h (scanWord_ne_skipped _ _ _)
  split at h
  · cases h
  split at h
  · unfold scanComma at h
    split at h <;> cases h
  split at h
  · cases h
  split at h
  · cases h
  split at h
  · exact absurd h (scanText_ne_skipped _ _ _)
  · exact absurd h (scanWord_ne_skipped _ _ _)

theorem not_isSkipped {c : Char} {cs : List Char} (hblank : isBlank c = false) (hsemi : c ≠ ';')
    (hbar : c = '#' → cs.head? ≠ some '|') : isSkipped (c :: cs) = false := by
  unfold isSkipped
  split
  · next heq => exact absurd (List.cons.inj heq).1 hsemi
  · next heq =>
    obtain ⟨rfl, rfl⟩ := List.cons.inj heq
    exact absurd rfl (hbar rfl)
  · simp [allBlank, hblank]

theorem isSkipped_of_begins {c : Char} {rest left : List Char} {t : Token}
    (h : Begins c rest t left) (happ : c :: rest = t.text ++ left) : isSkipped t.text = false := by
  cases h with
  | datumComment => rfl
  | vectorOpen => rfl
  | char h =>
    cases h
    rfl
  | quote _ hc => rcases hc with rfl | rfl <;> rfl
  | unquoteAt => rfl
  | unquote => rfl
  | listOpen _ hc => rcases hc with rfl | rfl <;> rfl
  | close _ hc => rcases hc with rfl | rfl <;> rfl
  | text h =>
    rw [(scanText_eq h).1]
    rfl
  | word hc hhash h =>
    obtain ⟨htext, -⟩ := piece_of_begins (.word hc hhash h) happ
    rw [htext] at happ ⊢
    refine not_isSkipped (isBlank_of_isWordChar hc) ?_ fun hsharp hhead => ?_
    · rintro rfl
      cases hc
    · obtain ⟨more, hmore⟩ := List.head?_eq_some_iff.mp hhead
      rw [hmore] at happ
      exact absurd (congrArg List.head? (List.cons.inj happ).2) (hhash hsharp).1

/-- Whether, after an opening mark, another block comment opens before the first closing mark. -/
def opensBlock : List Char → Bool
  | [] => false
  | '#' :: '|' :: _ => true
  | '|' :: '#' :: _ => false
  | _ :: rest => opensBlock rest

theorem blockLength_of_afterBlock {more left : List Char} (hflat : opensBlock more = false)
    (h : afterBlock 0 more = some left) :
    ∃ n, blockLength more = some (n + 2) ∧ more.drop n = left := by
  fun_induction opensBlock more with
  | case1 => cases h
  | case2 rest => cases hflat
  | case3 rest =>
    cases h
    exact ⟨2, rfl, rfl⟩
  | case4 c rest hopen hclose ih =>
    rw [afterBlock] at h
    · obtain ⟨n, hlength, hdrop⟩ := ih hflat h
      refine ⟨n + 1, ?_, hdrop⟩
      rw [blockLength, hlength]
      · rfl
      · exact hclose
    · exact hopen
    · exact hclose

/-- Whether a text begins with a block comment in which another one opens. -/
def nestsHere : List Char → Bool
  | '#' :: '|' :: more => opensBlock more
  | _ => false

/-- What a reader skips is a piece of a buffer, unless a block comment opens inside another one. -/
theorem piece_of_skipped {c : Char} {rest left : List Char}
    (hflat : nestsHere (c :: rest) = false) (h : scan (c :: rest) = .skipped left) :
    isSkipped (c :: rest.take (moreLength c rest)) = true ∧
      left = rest.drop (moreLength c rest) := by
  rcases comment_of_skipped h with ⟨rfl, hleft⟩ | ⟨more, rfl, rfl, hblock⟩
  · refine ⟨rfl, ?_⟩
    change left = rest.drop (rest.takeWhile (· != '\n')).length
    rw [drop_length_takeWhile, hleft]
  · obtain ⟨n, hlength, hdrop⟩ := blockLength_of_afterBlock hflat hblock
    have hmore : moreLength '#' ('|' :: more) = n + 1 := by
      change ((blockLength more).map (· - 1)).getD _ = n + 1
      rw [hlength]
      rfl
    rw [hmore]
    exact ⟨rfl, hdrop.symm⟩

/-- The texts of the pieces of a buffer, which do not depend on their offsets. -/
def pieces (cs : List Char) : List (List Char) := (piecesFrom 0 cs).map (·.text)

theorem map_text_piecesFrom (offset : Nat) (cs : List Char) :
    (piecesFrom offset cs).map (·.text) = pieces cs := by
  have hany : ∀ offset', (piecesFrom offset cs).map (·.text) =
      (piecesFrom offset' cs).map (·.text) := by
    fun_induction piecesFrom offset cs with
    | case1 offset =>
      intro offset'
      rw [piecesFrom]
    | case2 offset c rest n here ih =>
      intro offset'
      rw [piecesFrom]
      simp only [List.map_cons]
      congr 1
      exact ih _
  exact hany 0

theorem pieces_cons (c : Char) (rest : List Char) :
    pieces (c :: rest) =
      (c :: rest.take (moreLength c rest)) :: pieces (rest.drop (moreLength c rest)) := by
  rw [pieces, piecesFrom, List.map_cons, map_text_piecesFrom]

/-- The texts of the tokens of a buffer. -/
def texts (cs : List Char) : List (List Char) := (pieces cs).filter (!isSkipped ·)

theorem map_text_tokens (cs : List Char) : (tokens cs).map (·.text) = texts cs := by
  rw [texts, pieces, List.filter_map]
  rfl

theorem texts_nil : texts [] = [] := by
  simp [texts, pieces, piecesFrom]

theorem texts_cons_of_skipped {c : Char} {rest : List Char}
    (h : isSkipped (c :: rest.take (moreLength c rest)) = true) :
    texts (c :: rest) = texts (rest.drop (moreLength c rest)) := by
  simp [texts, pieces_cons, h]

theorem texts_cons_of_not {c : Char} {rest : List Char}
    (h : isSkipped (c :: rest.take (moreLength c rest)) = false) :
    texts (c :: rest) = (c :: rest.take (moreLength c rest)) ::
      texts (rest.drop (moreLength c rest)) := by
  simp [texts, pieces_cons, h]

theorem isSkipped_of_allBlank {cs : List Char} (h : allBlank cs = true) : isSkipped cs = true := by
  unfold isSkipped
  split
  · rfl
  · rfl
  · exact h

theorem texts_trimStart (cs : List Char) : texts (trimStart cs) = texts cs := by
  cases cs with
  | nil => rfl
  | cons c rest =>
    by_cases hc : isBlank c = true
    · have hmore : moreLength c rest = (rest.takeWhile isBlank).length := by simp [moreLength, hc]
      have htake : rest.take (rest.takeWhile isBlank).length = rest.takeWhile isBlank :=
        (List.prefix_iff_eq_take.mp (List.takeWhile_prefix _)).symm
      have hskip : isSkipped (c :: rest.take (moreLength c rest)) = true := by
        apply isSkipped_of_allBlank
        rw [hmore, htake]
        simp [allBlank, hc]
      rw [texts_cons_of_skipped hskip, hmore, drop_length_takeWhile]
      simp [trimStart, hc]
    · simp [trimStart, hc]

end Scanner

namespace Lexed

open Scanner

/-- Whether a block comment of the text opens inside another one. -/
def nests (cs : List Char) : Bool :=
  match _h : scan (trimStart cs) with
  | .skipped rest => nestsHere (trimStart cs) || nests rest
  | .token _ rest => nests rest
  | _ => false
termination_by cs.length
decreasing_by
  all_goals exact scan_trimStart_rest (by simp [_h, Lexeme.rest?])

theorem nests_of_skipped {cs rest : List Char} (h : scan (trimStart cs) = .skipped rest) :
    nests cs = (nestsHere (trimStart cs) || nests rest) := by
  rw [nests]
  split <;> simp_all

theorem nests_of_token {cs rest : List Char} {t : Token} (h : scan (trimStart cs) = .token t rest) :
    nests cs = nests rest := by
  rw [nests]
  split <;> simp_all

theorem trimStart_eq_nil_of_ended {cs : List Char} (h : scan (trimStart cs) = .ended) :
    trimStart cs = [] := by
  rcases scan_cases (trimStart cs) with hnil | ⟨gap, hgap⟩ | hrest | ⟨hdangling, -⟩
  · exact hnil
  · rw [h] at hgap
    cases hgap
  · rw [h] at hrest
    cases hrest
  · rw [h] at hdangling
    cases hdangling

/-- A text that is scanned to its end has the tokens of a buffer. -/
theorem map_text_scanFrom {total : Nat} {cs : List Char} (hend : (scanFrom total cs).failure = none)
    (hflat : nests cs = false) : (scanFrom total cs).tokens.map (·.text) = texts cs := by
  fun_induction scanFrom total cs with
  | case1 cs h => rw [← texts_trimStart, trimStart_eq_nil_of_ended h, texts_nil, List.map_nil]
  | case2 cs rest h ih =>
    rw [nests_of_skipped h, Bool.or_eq_false_iff] at hflat
    rw [← texts_trimStart]
    cases hcs : trimStart cs with
    | nil =>
      rw [hcs] at h
      cases h
    | cons c more =>
      rw [hcs] at h hflat
      obtain ⟨hskip, rfl⟩ := piece_of_skipped hflat.1 h
      rw [texts_cons_of_skipped hskip]
      exact ih hend hflat.2
  | case3 cs t rest h ih =>
    rw [nests_of_token h] at hflat
    rw [← texts_trimStart]
    cases hcs : trimStart cs with
    | nil =>
      rw [hcs] at h
      cases h
    | cons c more =>
      have hc : isBlank c = false := head_trimStart cs c (by simp [hcs])
      rw [hcs] at h
      have happ := eq_append_of_scan h
      have hbegins := begins_of_scan hc h
      have hskip := isSkipped_of_begins hbegins happ
      obtain ⟨htext, rfl⟩ := piece_of_begins hbegins happ
      rw [htext] at hskip
      rw [texts_cons_of_not hskip, cons, List.map_cons, htext, ih hend hflat]
  | case4 cs gap h => cases hend
  | case5 cs h => cases hend

end Lexed

end LiveScheme
