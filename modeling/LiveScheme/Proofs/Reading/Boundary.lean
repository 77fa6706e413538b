import LiveScheme.Proofs.Reading.Splice

/-!
# Places between lexemes

A text can be cut where a lexeme ends, or in the blanks in front of the next one. What stands in
front of such a place has the same lexemes by itself as with the text behind it, with one exception:
a truth value that runs into a quotation mark is a name there, and a truth value where the text
ends.
-/

namespace LiveScheme

open Text

namespace Token

theorem rest?_extend (more : List Char) (lexeme : Lexeme) :
    (lexeme.extend more).rest? = lexeme.rest?.map (· ++ more) := by
  cases lexeme <;> rfl

/-- The end of a block comment is two characters of its own. -/
theorem afterBlock_length_add_two {depth : Nat} {cs left : List Char}
    (h : afterBlock depth cs = some left) : left.length + 2 ≤ cs.length := by
  fun_induction afterBlock depth cs with
  | case1 => cases h
  | case2 depth rest ih => have := ih h; simp only [List.length_cons]; omega
  | case3 rest => cases h; simp
  | case4 rest depth ih => have := ih h; simp only [List.length_cons]; omega
  | case5 depth c rest _ _ ih => have := ih h; simp only [List.length_cons]; omega

section Cut

variable {cs left more : List Char}

theorem afterBlock_cut {depth : Nat} (h : afterBlock depth (cs ++ more) = some (left ++ more)) :
    afterBlock depth cs = some left := by
  fun_induction afterBlock depth cs with
  | case1 =>
    have hlength := afterBlock_length h
    rw [List.length_append, List.nil_append] at hlength
    omega
  | case2 depth rest ih => exact ih (by simpa [afterBlock] using h)
  | case3 rest =>
    have heq : rest ++ more = left ++ more := by simpa [afterBlock] using h
    rw [List.append_cancel_right heq]
  | case4 rest depth ih => exact ih (by simpa [afterBlock] using h)
  | case5 depth c rest hopen hclose ih =>
    cases rest with
    | nil =>
      have hlength := afterBlock_length_add_two h
      simp only [List.length_append, List.length_cons, List.length_nil] at hlength
      omega
    | cons d rest =>
      rw [List.cons_append, afterBlock] at h
      · exact ih h
      · rintro rest' rfl heq
        cases heq
        exact hopen rest rfl rfl
      · rintro rest' rfl heq
        cases heq
        exact hclose rest rfl rfl

theorem scanText_cut {body : List Char}
    (h : (scanText body (cs ++ more)).rest? = some (left ++ more)) :
    (scanText body cs).rest?.isSome = true := by
  fun_induction scanText body cs with
  | case1 =>
    have hlength := scanText_rest h
    rw [List.length_append, List.nil_append] at hlength
    omega
  | case2 body =>
    cases more with
    | nil => cases h
    | cons c more =>
      have htext : (scanText (c :: '\\' :: body) more).rest? = some (left ++ c :: more) := h
      have hlength := scanText_rest htext
      simp only [List.length_append, List.length_cons] at hlength
      omega
  | case3 body c rest ih => exact ih h
  | case4 body rest => rfl
  | case5 body c rest hslash hquote ih =>
    apply ih
    rw [← h, List.cons_append, scanText, if_neg hquote]
    exact hslash

section DropWhile

variable {p : Char → Bool} (h : (cs ++ more).dropWhile p = left ++ more)

include h

theorem takeWhile_cut : (cs ++ more).takeWhile p = cs.takeWhile p := by
  induction cs with
  | nil =>
    have hsplit := List.takeWhile_append_dropWhile (p := p) (l := more)
    rw [List.nil_append] at h
    rw [h, ← List.append_assoc] at hsplit
    have hnil : more.takeWhile p ++ left = [] := List.append_left_eq_self.mp hsplit
    rw [List.nil_append, (List.append_eq_nil_iff.mp hnil).1]
    rfl
  | cons c cs ih =>
    rw [List.cons_append] at h ⊢
    by_cases hc : p c = true
    · rw [List.dropWhile_cons_of_pos hc] at h
      rw [List.takeWhile_cons_of_pos hc, List.takeWhile_cons_of_pos hc, ih h]
    · rw [List.takeWhile_cons_of_neg hc, List.takeWhile_cons_of_neg hc]

theorem dropWhile_cut : cs.dropWhile p = left := by
  have hwhole := List.takeWhile_append_dropWhile (p := p) (l := cs ++ more)
  have hfront := List.takeWhile_append_dropWhile (p := p) (l := cs)
  rw [h, takeWhile_cut h, ← List.append_assoc] at hwhole
  have hcut := List.append_cancel_right hwhole
  rw [← hfront, List.takeWhile_append_dropWhile] at hcut
  exact (List.append_cancel_left (hcut.trans hfront.symm)).symm

end DropWhile

theorem scanChar_cut {c : Char} (h : (scanChar c (cs ++ more)).rest? = some (left ++ more)) :
    scanChar c (cs ++ more) = (scanChar c cs).extend more := by
  simp only [scanChar, Lexeme.rest?, Option.some.injEq] at h
  simp only [scanChar, Lexeme.extend]
  by_cases hc : isLetter c = true
  · simp only [hc, if_true, drop_length_takeWhile] at h ⊢
    rw [takeWhile_cut h, dropWhile_cut h, h]
  · simp [hc]

/-- A word within the front of a text is a word of the front, or a truth value there. -/
theorem scanWord_cut {c : Char} (h : (scanWord c (cs ++ more)).rest? = some (left ++ more)) :
    scanWord c (cs ++ more) = (scanWord c cs).extend more ∨
      left = [] ∧ boolWords.contains (c :: cs) = true := by
  simp only [scanWord] at h ⊢
  split at h
  · next hbool =>
    left
    simp only [Lexeme.rest?, List.length_cons, Nat.add_sub_cancel, drop_length_takeWhile,
      Option.some.injEq] at h
    have hfront := takeWhile_cut h
    rw [hfront] at hbool
    rw [hfront, if_pos hbool, if_pos hbool]
    simp only [Lexeme.extend, List.length_cons, Nat.add_sub_cancel, drop_length_takeWhile]
    rw [dropWhile_cut h, ← h, ← hfront, drop_length_takeWhile]
  · next hbool =>
    have hdrop : (cs ++ more).dropWhile isWordChar = left ++ more := Option.some.inj h
    by_cases hfront : boolWords.contains (c :: cs.takeWhile fun d => !isBreak d) = true
    · right
      have hmem : (c :: cs.takeWhile fun d => !isBreak d) ∈ boolWords := by simpa using hfront
      have hchars : ∀ d ∈ cs.takeWhile fun d => !isBreak d, isWordChar d = true := fun d hd =>
        isWordChar_of_mem_boolWords hmem d (List.mem_cons_of_mem c hd)
      -- A break behind the truth value would stand behind it in the longer text as well.
      have hend : cs.dropWhile (fun d => !isBreak d) = [] := by
        by_contra hne
        have hlong : (cs ++ more).takeWhile (fun d => !isBreak d) = cs.takeWhile (!isBreak ·) :=
          takeWhile_append_of_stops (.inl hne)
        rw [hlong] at hbool
        exact hbool hfront
      have hall : cs.takeWhile (fun d => !isBreak d) = cs := by
        have hsplit := List.takeWhile_append_dropWhile (p := fun d => !isBreak d) (l := cs)
        rwa [hend, List.append_nil] at hsplit
      rw [hall] at hfront hchars
      refine ⟨?_, hfront⟩
      rw [← dropWhile_cut hdrop, List.dropWhile_eq_nil_iff.mpr hchars]
    · left
      rw [if_neg hbool, if_neg hfront, Lexeme.extend, takeWhile_cut hdrop, dropWhile_cut hdrop,
        hdrop]

theorem scanComma_cut (h : (scanComma (cs ++ more)).rest? = some (left ++ more)) :
    scanComma (cs ++ more) = (scanComma cs).extend more := by
  cases cs with
  | nil =>
    cases more with
    | nil => rfl
    | cons c more =>
      by_cases hc : c = '@'
      · subst hc
        have hlength := congrArg List.length (Option.some.inj h)
        simp only [List.length_append, List.length_cons] at hlength
        omega
      · simp [scanComma, hc, Lexeme.extend]
  | cons c cs =>
    by_cases hc : c = '@'
    · subst hc
      rfl
    · simp [scanComma, hc, Lexeme.extend]

theorem scanChar_rest {c : Char} (h : (scanChar c cs).rest? = some left) :
    left.length ≤ cs.length := by
  cases h
  exact (List.drop_sublist _ cs).length_le

/-- What makes more than a word of a number sign belongs to the lexeme. -/
theorem scanHash_rest_of_opens {c : Char} (hc : c = '|' ∨ c = ';' ∨ c = '(' ∨ c = '\\')
    (h : (scanHash (c :: cs)).rest? = some left) : left.length ≤ cs.length := by
  rcases hc with rfl | rfl | rfl | rfl
  · cases hblock : afterBlock 0 cs with
    | none => simp [scanHash, hblock, Lexeme.rest?] at h
    | some after =>
      have hafter : after = left := by simpa [scanHash, hblock, Lexeme.rest?] using h
      exact (afterBlock_length (hafter ▸ hblock)).le
  · cases h
    exact Nat.le_refl _
  · cases h
    exact Nat.le_refl _
  · cases cs with
    | nil =>
      cases h
      exact Nat.zero_le _
    | cons d cs => exact (scanChar_rest h).trans (Nat.le_succ _)

theorem scanHash_cut (h : (scanHash (cs ++ more)).rest? = some (left ++ more)) :
    scanHash (cs ++ more) = (scanHash cs).extend more ∨
      left = [] ∧ boolWords.contains ('#' :: cs) = true := by
  cases cs with
  | nil =>
    have hmore : ∀ c ∈ more.head?, c ≠ '|' ∧ c ≠ ';' ∧ c ≠ '(' ∧ c ≠ '\\' := by
      intro c hc
      obtain ⟨after, rfl⟩ := List.head?_eq_some_iff.mp hc
      have hnone : ¬ (c = '|' ∨ c = ';' ∨ c = '(' ∨ c = '\\') := fun hopens => by
        have hlength := scanHash_rest_of_opens hopens h
        simp only [List.length_append, List.length_cons] at hlength
        omega
      simpa only [not_or] using hnone
    rw [List.nil_append, scanHash_eq_scanWord hmore] at h ⊢
    exact @scanWord_cut [] left more '#' h
  | cons c rest =>
    by_cases hbar : c = '|'
    · subst hbar
      left
      cases hblock : afterBlock 0 (rest ++ more) with
      | none => simp [scanHash, hblock, Lexeme.rest?] at h
      | some after =>
        have hafter : after = left ++ more := by simpa [scanHash, hblock, Lexeme.rest?] using h
        subst hafter
        simp [scanHash, hblock, afterBlock_cut hblock, Lexeme.extend]
    by_cases hsemi : c = ';'
    · subst hsemi
      exact .inl rfl
    by_cases hopen : c = '('
    · subst hopen
      exact .inl rfl
    by_cases hslash : c = '\\'
    · subst hslash
      left
      cases rest with
      | nil =>
        cases more with
        | nil => rfl
        | cons d more =>
          have hchar : (scanChar d more).rest? = some (left ++ d :: more) := h
          have hlength := scanChar_rest hchar
          simp only [List.length_append, List.length_cons] at hlength
          omega
      | cons d rest => exact scanChar_cut h
    · have hhead : ∀ more, ∀ d ∈ (c :: rest ++ more).head?,
          d ≠ '|' ∧ d ≠ ';' ∧ d ≠ '(' ∧ d ≠ '\\' := by
        rintro more d hd
        cases hd
        exact ⟨hbar, hsemi, hopen, hslash⟩
      rw [scanHash_eq_scanWord (hhead more)] at h ⊢
      rw [scanHash_eq_scanWord (by simpa using hhead [])]
      exact scanWord_cut h

/-- A lexeme within the front of a text is a lexeme of the front. Only a truth value at the end of
the front may be something else in the text, where it need not reach to a break. -/
theorem scan_cut (h : (scan (cs ++ more)).rest? = some (left ++ more)) :
    scan (cs ++ more) = (scan cs).extend more ∨ left = [] ∧ boolWords.contains cs = true := by
  cases cs with
  | nil =>
    have hlength := scan_rest h
    rw [List.length_append, List.nil_append] at hlength
    omega
  | cons c cs =>
    simp only [List.cons_append, scan] at h ⊢
    by_cases hsemi : c = ';'
    · simp only [if_pos hsemi] at h ⊢
      rw [dropWhile_cut (Option.some.inj h), Lexeme.extend, Option.some.inj h]
      exact .inl rfl
    simp only [if_neg hsemi] at h ⊢
    by_cases hhash : c = '#'
    · subst hhash
      exact scanHash_cut h
    simp only [if_neg hhash] at h ⊢
    by_cases hquote : (decide (c = '\x27') || decide (c = '\x60')) = true
    · simp only [if_pos hquote]
      exact .inl rfl
    simp only [if_neg hquote] at h ⊢
    by_cases hcomma : c = ','
    · simp only [if_pos hcomma] at h ⊢
      exact .inl (scanComma_cut h)
    simp only [if_neg hcomma] at h ⊢
    by_cases hopen : (decide (c = '(') || decide (c = '[')) = true
    · simp only [if_pos hopen]
      exact .inl rfl
    simp only [if_neg hopen] at h ⊢
    by_cases hclose : (decide (c = ')') || decide (c = ']')) = true
    · simp only [if_pos hclose]
      exact .inl rfl
    simp only [if_neg hclose] at h ⊢
    by_cases htext : c = '\x22'
    · simp only [if_pos htext] at h ⊢
      exact .inl (scanText_extend (scanText_cut h) more)
    · simp only [if_neg htext] at h ⊢
      exact scanWord_cut h

end Cut

theorem scan_boolWords {w : List Char} (h : w ∈ boolWords) : scan w = .token ⟨.bool, w⟩ [] := by
  simp only [boolWords, List.mem_cons, List.not_mem_nil, or_false] at h
  rcases h with rfl | rfl | rfl | rfl <;> rfl

end Token

namespace Lexed

/-- The text in front of `back` ends where a lexeme of the whole text ends, or in the blanks behind
such a place. -/
inductive Boundary (back : List Char) : List Char → Prop
  | blanks {front : List Char} : (∀ c ∈ front, isBlank c = true) → Boundary back front
  | later {front rest : List Char} :
    (Token.scan (trimStart (front ++ back))).rest? = some (rest ++ back) → Boundary back rest →
    Boundary back front

/-- There is such a place between any two tokens that follow each other, and at either end. -/
theorem exists_boundary {total : Nat} {cs : List Char} {ts us : List Token}
    (h : scanFrom total cs = ⟨ts ++ us, none⟩) :
    ∃ front back, cs = front ++ back ∧ Boundary back front ∧ scanFrom total back = ⟨us, none⟩ := by
  have hlater : ∀ {cs rest front back}, (Token.scan (trimStart cs)).rest? = some rest →
      rest = front ++ back → Boundary back front →
      ∃ front', cs = front' ++ back ∧ Boundary back front' := by
    rintro cs rest front back hrest rfl hfront
    obtain ⟨skipped, rfl⟩ := (Token.rest_suffix hrest).trans (List.dropWhile_suffix _)
    rw [← List.append_assoc] at hrest ⊢
    exact ⟨skipped ++ front, rfl, .later hrest hfront⟩
  induction ts generalizing cs with
  | nil => exact ⟨[], cs, rfl, .blanks (List.forall_mem_nil _), h⟩
  | cons t ts ih =>
    fun_induction scanFrom total cs with
    | case1 | case4 | case5 => cases h
    | case2 cs rest hskipped ihrest =>
      obtain ⟨front, back, hrest, hfront, hback⟩ := ihrest h
      obtain ⟨front', heq, hfront'⟩ := hlater (by rw [hskipped]; rfl) hrest hfront
      exact ⟨front', back, heq, hfront', hback⟩
    | case3 cs t' rest htoken _ =>
      obtain ⟨htokens, hnone⟩ := Lexed.mk.inj h
      have hus : (scanFrom total rest).tokens = ts ++ us := (List.cons.inj htokens).2
      have hmore : scanFrom total rest = ⟨ts ++ us, none⟩ := by rw [← hus, ← hnone]
      obtain ⟨front, back, hrest, hfront, hback⟩ := ih hmore
      obtain ⟨front', heq, hfront'⟩ := hlater (by rw [htoken]; rfl) hrest hfront
      exact ⟨front', back, heq, hfront', hback⟩

variable {front back : List Char}

/-- The first lexeme ends in the front, so it begins there. -/
theorem trimStart_ne_nil {rest : List Char}
    (h : (Token.scan (trimStart (front ++ back))).rest? = some (rest ++ back)) :
    trimStart front ≠ [] := by
  intro hblank
  rw [trimStart_append_of_blank hblank] at h
  have hlength := Token.scan_trimStart_rest h
  rw [List.length_append] at hlength
  omega

/-- The lexemes in front of a boundary come first in the text. They are those of the front by
itself, unless this ends with a truth value. -/
theorem Boundary.scanFrom_append {total : Nat} (h : Boundary back front) (total' : Nat)
    (hok : (scanFrom total (front ++ back)).failure = none) :
    (scanFrom total' front).failure = none ∧
      ∃ ts, scanFrom total (front ++ back) = prepend ts (scanFrom total back) ∧
        (ts = (scanFrom total' front).tokens ∨ ∃ w ∈ Token.boolWords, w <:+ front) := by
  induction h with
  | @blanks front hblank =>
    have htrim : trimStart front = [] := List.dropWhile_eq_nil_iff.mpr hblank
    have hsame := scanFrom_of_trimStart (trimStart_append_of_blank htrim back) hok
    rw [scanFrom_blank hblank, ← hsame]
    exact ⟨rfl, [], rfl, .inl rfl⟩
  | @later front rest hrest _ ih =>
    have htrim : trimStart (front ++ back) = trimStart front ++ back :=
      trimStart_append_of_ne (trimStart_ne_nil hrest) back
    have hsuffix : trimStart front <:+ front := List.dropWhile_suffix _
    rcases Token.scan_cut (htrim ▸ hrest) with hcut | ⟨rfl, hbool⟩
    · rw [← htrim] at hcut
      have hleft : (Token.scan (trimStart front)).rest? = some rest := by
        rw [hcut, Token.rest?_extend, Option.map_eq_some_iff] at hrest
        obtain ⟨left, hleft, heq⟩ := hrest
        rw [hleft, List.append_cancel_right heq]
      obtain ⟨us, hfront, hwhole⟩ := scanFrom_of_extend hcut hleft
      rw [hwhole] at hok ⊢
      rw [hfront]
      obtain ⟨hnone, ts, hts, hsame⟩ := ih hok
      refine ⟨hnone, us ++ ts, by rw [hts, prepend_append], hsame.imp (congrArg (us ++ ·)) ?_⟩
      rintro ⟨w, hw, hlast⟩
      exact ⟨w, hw, hlast.trans ((Token.rest_suffix hleft).trans hsuffix)⟩
    · have hword : trimStart front ∈ Token.boolWords := by simpa using hbool
      obtain ⟨ts, hwhole⟩ := scanFrom_of_rest hrest
      rw [scanFrom_of_token (Token.scan_boolWords hword), scanFrom_blank (List.forall_mem_nil _)]
      exact ⟨rfl, ts, hwhole total, .inr ⟨_, hword, hsuffix⟩⟩

end Lexed

end LiveScheme
