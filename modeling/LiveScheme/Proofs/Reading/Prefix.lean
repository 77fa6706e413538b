import LiveScheme.Proofs.Reading.Steps

/-!
# Texts cut at a line end

The end of a line ends every word, as a gap does, so a lexeme that is complete in front of it is the
same whatever follows. A text of whole lines that begins a readable text therefore reads completely,
and then what follows reads by itself, or it is incomplete; no other error can arise.
-/

namespace LiveScheme

open Text

/-- A text of whole lines. -/
def AtLineEnd (cs : List Char) : Prop := ∀ c ∈ cs.getLast?, c = '\n'

instance : DecidablePred AtLineEnd := fun cs =>
  decidable_of_iff (cs.getLast?.all (· == '\n') = true) (by simp [AtLineEnd, Option.all_eq_true])

namespace AtLineEnd

theorem nil : AtLineEnd [] := by
  intro c hc
  cases hc

theorem tail {c : Char} {cs : List Char} (h : AtLineEnd (c :: cs)) : AtLineEnd cs := by
  cases cs with
  | nil => exact nil
  | cons d cs => rwa [AtLineEnd, List.getLast?_cons_cons] at h

theorem of_append {as bs : List Char} (h : AtLineEnd (as ++ bs)) : AtLineEnd bs := by
  induction as with
  | nil => exact h
  | cons c as ih => exact ih h.tail

theorem append {as bs : List Char} (ha : AtLineEnd as) (hb : AtLineEnd bs) :
    AtLineEnd (as ++ bs) := by
  cases bs with
  | nil => rwa [List.append_nil]
  | cons c bs =>
    intro d hd
    rw [List.getLast?_append] at hd
    refine hb d ?_
    cases hlast : (c :: bs).getLast? with
    | none => simp at hlast
    | some e => simpa [hlast] using hd

/-- A line that has begun goes on at least to its end. -/
theorem mem_of_ne {c : Char} {cs : List Char} (h : AtLineEnd (c :: cs)) (hc : c ≠ '\n') :
    '\n' ∈ cs := by
  cases hlast : cs.getLast? with
  | none =>
    rw [List.getLast?_eq_none_iff] at hlast
    subst hlast
    exact absurd (h c rfl) hc
  | some d =>
    have hd : d = '\n' := h.tail d hlast
    rw [← hd]
    exact List.mem_of_getLast? hlast

end AtLineEnd

namespace Token

/-- A word that begins in `cs` has ended when `more` is over: the line ends, or there is a gap. -/
def Ends (cs more : List Char) : Prop := '\n' ∈ cs ∨ AtGap more

theorem Ends.tail {c : Char} {cs more : List Char} (h : Ends (c :: cs) more) (hc : c ≠ '\n') :
    Ends cs more :=
  h.imp_left fun hmem => (List.mem_cons.mp hmem).resolve_left hc.symm

/-- A run of characters that no gap goes on stops there. -/
theorem Ends.stops {p : Char → Bool} {cs more : List Char} (h : Ends cs more)
    (hp : ∀ c, isGap c = true → p c = false) :
    cs.dropWhile p ≠ [] ∨ ∀ c ∈ more.head?, p c = false :=
  h.imp (fun hmem => dropWhile_ne_nil hmem (hp _ (by decide))) fun hgap c hc => hp c (hgap c hc)

/-- The lexeme in a text that goes on. -/
def Lexeme.extend (more : List Char) : Lexeme → Lexeme
  | skipped rest => skipped (rest ++ more)
  | token t rest => token t (rest ++ more)
  | lexeme => lexeme

theorem afterBlock_append {depth : Nat} {cs left : List Char}
    (h : afterBlock depth cs = some left) (more : List Char) :
    afterBlock depth (cs ++ more) = some (left ++ more) := by
  fun_induction afterBlock depth cs with
  | case1 => cases h
  | case2 depth rest ih => simpa [afterBlock] using ih h
  | case3 rest => cases h; simp [afterBlock]
  | case4 rest depth ih => simpa [afterBlock] using ih h
  | case5 depth c rest hopen hclose ih =>
    cases rest with
    | nil => cases h
    | cons d rest =>
      rw [← ih h, List.cons_append, afterBlock]
      · rintro rest' rfl heq
        cases heq
        exact hopen rest rfl rfl
      · rintro rest' rfl heq
        cases heq
        exact hclose rest rfl rfl

theorem scanText_extend {body cs : List Char} (h : (scanText body cs).rest?.isSome = true)
    (more : List Char) : scanText body (cs ++ more) = (scanText body cs).extend more := by
  fun_induction scanText body cs with
  | case1 => cases h
  | case2 => cases h
  | case3 body c rest ih => simpa [scanText] using ih h
  | case4 body rest => simp [scanText, Lexeme.extend]
  | case5 body c rest hslash hquote ih =>
    rw [← ih h, List.cons_append, scanText, if_neg hquote]
    exact hslash

theorem scanWord_extend {c : Char} {cs more : List Char} (h : Ends cs more) :
    scanWord c (cs ++ more) = (scanWord c cs).extend more := by
  have hbreak : ∀ d, isGap d = true → (!isBreak d) = false := fun d hd => by
    rw [isBreak_of_isGap hd]
    rfl
  have hword : ∀ d, isGap d = true → isWordChar d = false := fun d hd =>
    isWordChar_of_isBreak (isBreak_of_isGap hd)
  have hlength : (cs.takeWhile fun d => !isBreak d).length ≤ cs.length :=
    (List.takeWhile_sublist _).length_le
  simp only [scanWord, takeWhile_append_of_stops (h.stops hbreak),
    takeWhile_append_of_stops (h.stops hword), dropWhile_append_of_stops (h.stops hword)]
  split
  · simp [Lexeme.extend, List.drop_append_of_le_length hlength]
  · rfl

theorem scanChar_extend {c : Char} {cs more : List Char} (h : Ends (c :: cs) more) :
    scanChar c (cs ++ more) = (scanChar c cs).extend more := by
  have hname : ∀ d, isGap d = true → isLetterOrDigit d = false := fun d hd =>
    Bool.eq_false_iff.mpr fun hletter => by
      rw [isGap_of_isLetterOrDigit hletter] at hd
      cases hd
  simp only [scanChar, Lexeme.extend]
  by_cases hc : isLetter c = true
  · have hfeed : c ≠ '\n' := by
      rintro rfl
      revert hc
      decide
    have hlength : (cs.takeWhile isLetterOrDigit).length ≤ cs.length :=
      (List.takeWhile_sublist _).length_le
    simp [hc, takeWhile_append_of_stops ((h.tail hfeed).stops hname),
      List.drop_append_of_le_length hlength]
  · simp [hc]

theorem scanHash_extend {cs more : List Char} (h : Ends cs more) (hbare : cs ≠ ['\\'])
    (hs : (scanHash cs).rest?.isSome = true) :
    scanHash (cs ++ more) = (scanHash cs).extend more := by
  have hword : (∀ c ∈ cs.head?, c ≠ '|' ∧ c ≠ ';' ∧ c ≠ '(' ∧ c ≠ '\\') →
      (∀ c ∈ (cs ++ more).head?, c ≠ '|' ∧ c ≠ ';' ∧ c ≠ '(' ∧ c ≠ '\\') →
      scanHash (cs ++ more) = (scanHash cs).extend more := fun hcs hmore => by
    rw [scanHash_eq_scanWord hcs, scanHash_eq_scanWord hmore, scanWord_extend h]
  cases cs with
  | nil =>
    obtain hmem | hgap := h
    · cases hmem
    · refine hword (fun c hc => by cases hc) fun c hc => ?_
      have hc : isGap c = true := hgap c hc
      refine ⟨?_, ?_, ?_, ?_⟩ <;> rintro rfl <;> revert hc <;> decide
  | cons c rest =>
    by_cases hbar : c = '|'
    · subst hbar
      cases hblock : afterBlock 0 rest with
      | none => simp [scanHash, hblock, Lexeme.rest?] at hs
      | some left => simp [scanHash, hblock, afterBlock_append hblock, Lexeme.extend]
    by_cases hsemi : c = ';'
    · subst hsemi
      rfl
    by_cases hopen : c = '('
    · subst hopen
      rfl
    by_cases hslash : c = '\\'
    · subst hslash
      cases rest with
      | nil => exact absurd rfl hbare
      | cons d rest => exact scanChar_extend (h.tail (by decide))
    · have hhead : ∀ d ∈ (c :: rest).head?, d ≠ '|' ∧ d ≠ ';' ∧ d ≠ '(' ∧ d ≠ '\\' := by
        rintro d hd
        cases hd
        exact ⟨hbar, hsemi, hopen, hslash⟩
      exact hword hhead hhead

theorem scanComma_extend {cs more : List Char} (h : Ends cs more) :
    scanComma (cs ++ more) = (scanComma cs).extend more := by
  cases cs with
  | nil =>
    obtain hmem | hgap := h
    · cases hmem
    · cases more with
      | nil => rfl
      | cons c more =>
        have hc : c ≠ '@' := by
          rintro rfl
          have hgap : isGap '@' = true := hgap _ rfl
          revert hgap
          decide
        simp [scanComma, hc, Lexeme.extend]
  | cons c cs =>
    by_cases hc : c = '@'
    · subst hc
      rfl
    · simp [scanComma, hc, Lexeme.extend]

/-- A complete lexeme is the same in a text that goes on where words end. Two others are not: a
comment goes on to the end of its line, and what begins like a character takes one. -/
theorem scan_extend {c : Char} {cs more : List Char} (h : Ends cs more)
    (hcomment : c = ';' → '\n' ∈ cs) (hbare : c :: cs ≠ ['#', '\\'])
    (hs : (scan (c :: cs)).rest?.isSome = true) :
    scan (c :: cs ++ more) = (scan (c :: cs)).extend more := by
  simp only [List.cons_append, scan] at hs ⊢
  split
  · next hc =>
    have hstops := dropWhile_ne_nil (p := (· != '\n')) (hcomment hc) (by decide)
    simp [Lexeme.extend, dropWhile_append_of_stops (.inl hstops)]
  split
  · next hc =>
    subst hc
    have hrest : cs ≠ ['\\'] := by
      rintro rfl
      exact hbare rfl
    simp_all [scanHash_extend h hrest]
  split
  · rfl
  split
  · exact scanComma_extend h
  split
  · rfl
  split
  · rfl
  split
  · simp_all [scanText_extend]
  · exact scanWord_extend h

/-- A lexeme that is complete in whole lines is the same in a text that goes on. -/
theorem scan_extend_lines {cs : List Char} (h : AtLineEnd cs)
    (hb : ∀ c ∈ cs.head?, isBlank c = false) (hs : (scan cs).rest?.isSome = true)
    (more : List Char) : scan (cs ++ more) = (scan cs).extend more := by
  cases cs with
  | nil => cases hs
  | cons c cs =>
    have hmem : '\n' ∈ cs := by
      apply h.mem_of_ne
      rintro rfl
      have hblank := hb '\n' rfl
      revert hblank
      decide
    refine scan_extend (.inl hmem) (fun _ => hmem) ?_ hs
    rintro heq
    cases heq
    simp at hmem

theorem scanHash_cases (cs : List Char) :
    (∃ gap, scanHash cs = .gap gap) ∨ (scanHash cs).rest?.isSome = true := by
  have hword : ∀ c ds, (scanWord c ds).rest?.isSome = true := by
    intro c ds
    unfold scanWord
    dsimp only
    split <;> rfl
  unfold scanHash
  split
  · next rest =>
    cases afterBlock 0 rest with
    | none => exact .inl ⟨_, rfl⟩
    | some left => exact .inr rfl
  · exact .inr rfl
  · exact .inr rfl
  · exact .inr rfl
  · exact .inr (hword _ _)

theorem scanText_cases (body cs : List Char) :
    (∃ gap, scanText body cs = .gap gap) ∨ (scanText body cs).rest?.isSome = true ∨
      scanText body cs = .dangling ∧ cs.getLast? = some '\\' := by
  fun_induction scanText body cs with
  | case1 => exact .inl ⟨_, rfl⟩
  | case2 => exact .inr (.inr ⟨rfl, rfl⟩)
  | case3 body c rest ih =>
    refine ih.imp_right (Or.imp_right fun h => ⟨h.1, ?_⟩)
    rw [List.getLast?_cons_cons, List.getLast?_cons, h.2]
    rfl
  | case4 body rest => exact .inr (.inl rfl)
  | case5 body c rest _ _ ih =>
    refine ih.imp_right (Or.imp_right fun h => ⟨h.1, ?_⟩)
    rw [List.getLast?_cons, h.2]
    rfl

/-- Only a backslash at the very end of a text leaves an escape without its character. -/
theorem scan_cases (cs : List Char) :
    cs = [] ∨ (∃ gap, scan cs = .gap gap) ∨ (scan cs).rest?.isSome = true ∨
      scan cs = .dangling ∧ cs.getLast? = some '\\' := by
  cases cs with
  | nil => exact .inl rfl
  | cons c cs =>
    right
    simp only [scan]
    split
    · exact .inr (.inl rfl)
    split
    · exact (scanHash_cases cs).imp_right .inl
    split
    · exact .inr (.inl rfl)
    split
    · right; left
      unfold scanComma
      split <;> rfl
    split
    · exact .inr (.inl rfl)
    split
    · exact .inr (.inl rfl)
    split
    · refine (scanText_cases [] cs).imp_right (Or.imp_right fun h => ⟨h.1, ?_⟩)
      rw [List.getLast?_cons, h.2]
      rfl
    · right; left
      unfold scanWord
      dsimp only
      split <;> rfl

theorem afterBlock_suffix {depth : Nat} {cs left : List Char}
    (h : afterBlock depth cs = some left) : left <:+ cs := by
  fun_induction afterBlock depth cs with
  | case1 => cases h
  | case2 depth rest ih => exact (ih h).trans (List.suffix_append ['#', '|'] rest)
  | case3 rest => cases h; exact List.suffix_append ['|', '#'] left
  | case4 rest depth ih => exact (ih h).trans (List.suffix_append ['|', '#'] rest)
  | case5 depth c rest _ _ ih => exact (ih h).trans (List.suffix_cons c rest)

theorem scanText_suffix {body cs left : List Char} (h : (scanText body cs).rest? = some left) :
    left <:+ cs := by
  fun_induction scanText body cs with
  | case1 => cases h
  | case2 => cases h
  | case3 body c more ih => exact (ih h).trans (List.suffix_append ['\\', c] more)
  | case4 body rest => cases h; exact List.suffix_cons _ left
  | case5 body c rest _ _ ih => exact (ih h).trans (List.suffix_cons c rest)

theorem scanWord_suffix {c : Char} {cs left : List Char} (h : (scanWord c cs).rest? = some left) :
    left <:+ cs := by
  simp only [scanWord] at h
  split at h <;> cases h
  · exact List.drop_suffix _ cs
  · exact List.dropWhile_suffix _

theorem scanHash_suffix {cs left : List Char} (h : (scanHash cs).rest? = some left) :
    left <:+ cs := by
  unfold scanHash at h
  split at h
  · next more =>
    split at h
    · next hblock => cases h; exact (afterBlock_suffix hblock).trans (List.suffix_cons _ more)
    · cases h
  · cases h; exact List.suffix_cons _ left
  · cases h; exact List.suffix_cons _ left
  · next c more =>
    cases h
    exact (List.drop_suffix _ more).trans (List.suffix_append ['\\', c] more)
  · exact scanWord_suffix h

theorem scanComma_suffix {cs left : List Char} (h : (scanComma cs).rest? = some left) :
    left <:+ cs := by
  unfold scanComma at h
  split at h <;> cases h
  · exact List.suffix_cons _ left
  · exact List.suffix_rfl

theorem rest_suffix {cs left : List Char} (h : (scan cs).rest? = some left) : left <:+ cs := by
  cases cs with
  | nil => cases h
  | cons c rest =>
    refine List.IsSuffix.trans ?_ (List.suffix_cons c rest)
    simp only [scan] at h
    repeat' split at h
    · cases h; exact List.dropWhile_suffix _
    · exact scanHash_suffix h
    · cases h; exact List.suffix_rfl
    · exact scanComma_suffix h
    · cases h; exact List.suffix_rfl
    · cases h; exact List.suffix_rfl
    · exact scanText_suffix h
    · exact scanWord_suffix h

end Token

namespace Lexed

/-- Positions matter to errors only. -/
theorem scanFrom_of_total {total : Nat} (total' : Nat) {cs : List Char}
    (hok : (scanFrom total cs).failure = none) : scanFrom total' cs = scanFrom total cs := by
  fun_induction scanFrom total cs with
  | case1 cs h => rw [scanFrom_of_ended h]
  | case2 cs rest h ih => rw [scanFrom_of_skipped h, ih hok]
  | case3 cs t rest h ih => rw [scanFrom_of_token h, ih hok, cons_eq_prepend]
  | case4 cs gap h => rw [scanFrom_of_gap h]
  | case5 cs h => cases hok

theorem scanFrom_of_trimStart {total : Nat} {cs ds : List Char} (h : trimStart cs = trimStart ds)
    (hok : (scanFrom total cs).failure = none) : scanFrom total ds = scanFrom total cs := by
  cases hscan : Token.scan (trimStart cs) with
  | ended => rw [scanFrom_of_ended hscan, scanFrom_of_ended (h ▸ hscan)]
  | skipped rest => rw [scanFrom_of_skipped hscan, scanFrom_of_skipped (h ▸ hscan)]
  | token t rest => rw [scanFrom_of_token hscan, scanFrom_of_token (h ▸ hscan)]
  | gap gap => rw [scanFrom_of_gap hscan, scanFrom_of_gap (h ▸ hscan)]
  | dangling =>
    rw [scanFrom_of_dangling hscan] at hok
    cases hok

theorem trimStart_append_of_blank {as : List Char} (h : trimStart as = []) (bs : List Char) :
    trimStart (as ++ bs) = trimStart bs := by
  rw [trimStart, List.dropWhile_eq_nil_iff] at h
  rw [trimStart, List.dropWhile_append_of_pos h, trimStart]

theorem trimStart_append_of_ne {as : List Char} (h : trimStart as ≠ []) (bs : List Char) :
    trimStart (as ++ bs) = trimStart as ++ bs := by
  rw [trimStart, List.dropWhile_append, if_neg, trimStart]
  rwa [List.isEmpty_iff]

theorem atLineEnd_trimStart {as : List Char} (ha : AtLineEnd as) : AtLineEnd (trimStart as) := by
  have hwhole : AtLineEnd (as.takeWhile isBlank ++ as.dropWhile isBlank) := by
    rwa [List.takeWhile_append_dropWhile]
  exact hwhole.of_append

/-- The tokens of a complete lexeme, in front of what is left behind it. -/
theorem scanFrom_of_rest {cs rest : List Char}
    (h : (Token.scan (trimStart cs)).rest? = some rest) :
    ∃ ts, ∀ total, scanFrom total cs = prepend ts (scanFrom total rest) := by
  cases hscan : Token.scan (trimStart cs) with
  | skipped more =>
    rw [hscan] at h
    cases h
    exact ⟨[], fun _ => scanFrom_of_skipped hscan⟩
  | token t more =>
    rw [hscan] at h
    cases h
    exact ⟨[t], fun _ => scanFrom_of_token hscan⟩
  | _ =>
    rw [hscan] at h
    cases h

/-- The same lexeme in two texts is the same tokens. -/
theorem scanFrom_of_extend {cs ds rest more : List Char}
    (h : Token.scan (trimStart ds) = (Token.scan (trimStart cs)).extend more)
    (hrest : (Token.scan (trimStart cs)).rest? = some rest) :
    ∃ ts, (∀ total, scanFrom total cs = prepend ts (scanFrom total rest)) ∧
      ∀ total, scanFrom total ds = prepend ts (scanFrom total (rest ++ more)) := by
  cases hscan : Token.scan (trimStart cs) with
  | skipped left =>
    rw [hscan] at h hrest
    cases hrest
    exact ⟨[], fun _ => scanFrom_of_skipped hscan, fun _ => scanFrom_of_skipped h⟩
  | token t left =>
    rw [hscan] at h hrest
    cases hrest
    exact ⟨[t], fun _ => scanFrom_of_token hscan, fun _ => scanFrom_of_token h⟩
  | _ =>
    rw [hscan] at hrest
    cases hrest

/-- Every token of a text was scanned somewhere in it, and not at a blank. -/
theorem scan_of_mem_tokens {total : Nat} {cs : List Char} {t : Token}
    (ht : t ∈ (scanFrom total cs).tokens) : ∃ rest, Token.scan (t.text ++ rest) = .token t rest ∧
      t.text ++ rest <:+ cs ∧ ∀ c ∈ (t.text ++ rest).head?, isBlank c = false := by
  have htrim : ∀ cs, trimStart cs <:+ cs := fun cs => List.dropWhile_suffix _
  fun_induction scanFrom total cs with
  | case1 cs h => cases ht
  | case2 cs rest h ih =>
    obtain ⟨after, hscan, hsuffix, hhead⟩ := ih ht
    have hrest : rest <:+ cs := (Token.rest_suffix (by rw [h]; rfl)).trans (htrim cs)
    exact ⟨after, hscan, hsuffix.trans hrest, hhead⟩
  | case3 cs t' rest h ih =>
    rcases List.mem_cons.mp ht with rfl | ht
    · have heq := Token.eq_append_of_scan h
      rw [heq] at h
      exact ⟨rest, h, heq ▸ htrim cs, heq ▸ head_trimStart cs⟩
    · obtain ⟨after, hscan, hsuffix, hhead⟩ := ih ht
      have hrest : rest <:+ cs := (Token.rest_suffix (by rw [h]; rfl)).trans (htrim cs)
      exact ⟨after, hscan, hsuffix.trans hrest, hhead⟩
  | case4 cs gap h => cases ht
  | case5 cs h => cases ht

/-- Scanning goes on behind a complete lexeme of whole lines as it does in longer texts. -/
theorem scan_trimStart_append {as : List Char} (ha : AtLineEnd as)
    (hs : (Token.scan (trimStart as)).rest?.isSome = true) (bs : List Char) :
    Token.scan (trimStart (as ++ bs)) = (Token.scan (trimStart as)).extend bs := by
  have hne : trimStart as ≠ [] := by
    intro h
    rw [h] at hs
    cases hs
  rw [trimStart_append_of_ne hne,
    Token.scan_extend_lines (atLineEnd_trimStart ha) (head_trimStart as) hs]

/-- What is left of whole lines behind a lexeme are whole lines. -/
theorem atLineEnd_rest {as rest : List Char} (ha : AtLineEnd as)
    (h : (Token.scan (trimStart as)).rest? = some rest) : AtLineEnd rest := by
  obtain ⟨front, heq⟩ := Token.rest_suffix h
  have htrim := atLineEnd_trimStart ha
  rw [← heq] at htrim
  exact htrim.of_append

theorem scanFrom_append {total : Nat} (total' : Nat) {as bs : List Char} (ha : AtLineEnd as)
    (hok : (scanFrom total (as ++ bs)).failure = none) :
    (scanFrom total' as).failure = none ∧
        scanFrom total (as ++ bs) = prepend (scanFrom total' as).tokens (scanFrom total bs) ∨
      (∃ gap, (scanFrom total' as).failure = some (.incomplete gap)) ∧
        (scanFrom total' as).tokens <+: (scanFrom total (as ++ bs)).tokens := by
  fun_induction scanFrom total' as with
  | case1 cs h =>
    have hnil : trimStart cs = [] := by
      rcases Token.scan_cases (trimStart cs) with hnil | ⟨gap, hgap⟩ | hrest | ⟨hdangling, -⟩
      · exact hnil
      · rw [h] at hgap; cases hgap
      · rw [h] at hrest; cases hrest
      · rw [h] at hdangling; cases hdangling
    left
    refine ⟨rfl, ?_⟩
    rw [prepend_nil]
    exact (scanFrom_of_trimStart (trimStart_append_of_blank hnil bs) hok).symm
  | case2 cs rest h ih =>
    have hscan := scan_trimStart_append ha (by rw [h]; rfl) bs
    rw [h] at hscan
    rw [scanFrom_of_skipped hscan] at hok ⊢
    exact ih (atLineEnd_rest ha (by rw [h]; rfl)) hok
  | case3 cs t rest h ih =>
    have hscan := scan_trimStart_append ha (by rw [h]; rfl) bs
    rw [h] at hscan
    rw [scanFrom_of_token hscan] at hok ⊢
    rcases ih (atLineEnd_rest ha (by rw [h]; rfl)) hok with ⟨hnone, heq⟩ | ⟨hgap, hpre⟩
    · left
      refine ⟨hnone, ?_⟩
      rw [heq, ← prepend_append]
      rfl
    · right
      exact ⟨hgap, List.prefix_append_right_inj [t] |>.mpr hpre⟩
  | case4 cs gap h => exact .inr ⟨⟨gap, rfl⟩, List.nil_prefix⟩
  | case5 cs h =>
    rcases Token.scan_cases (trimStart cs) with hnil | ⟨gap, hgap⟩ | hrest | ⟨-, hlast⟩
    · rw [hnil] at h; cases h
    · rw [h] at hgap; cases hgap
    · rw [h] at hrest; cases hrest
    · have hback := (atLineEnd_trimStart ha) '\\' hlast
      cases hback

/-- Whole lines at the front of a text without errors: their tokens come first, and either the rest
is scanned by itself or the lines end inside a construct. -/
theorem ofText_append {as bs : List Char} (ha : AtLineEnd as)
    (hok : (ofText (as ++ bs)).failure = none) :
    (ofText as).failure = none ∧ (ofText bs).failure = none ∧
        (ofText (as ++ bs)).tokens = (ofText as).tokens ++ (ofText bs).tokens ∨
      (∃ gap, (ofText as).failure = some (.incomplete gap)) ∧
        (ofText as).tokens <+: (ofText (as ++ bs)).tokens := by
  rcases scanFrom_append as.length ha hok with ⟨hnone, heq⟩ | hgap
  · left
    have hbs : (scanFrom (as ++ bs).length bs).failure = none := by
      rw [ofText, heq] at hok
      exact hok
    have htotal : scanFrom (as ++ bs).length bs = ofText bs :=
      (scanFrom_of_total bs.length hbs).symm
    refine ⟨hnone, by rwa [← htotal], ?_⟩
    rw [ofText, heq, htotal]
    rfl
  · exact .inr hgap

end Lexed

namespace Datum

namespace Reading

theorem gap?_eq_none {stack : List Open} (h : gap? stack = none) : stack = [] := by
  unfold gap? at h
  split at h <;> first | rfl | cases h

end Reading

/-- What a text reads as when all its tokens could be read. -/
def Reading.result (r : Reading) (failure : Option ReadError) : Except ReadError (List Datum) :=
  match failure, gap? r.stack with
  | some e, _ => .error e
  | none, some gap => .error (.incomplete gap)
  | none, none => .ok r.done.reverse

theorem readAll_of_run {source : String} {r : Reading}
    (hr : Reading.start.run (Lexed.ofText source.toList).tokens = .ok r) :
    readAll source = r.result (Lexed.ofText source.toList).failure := by
  simp only [readAll, hr, Reading.result]
  cases (Lexed.ofText source.toList).failure with
  | some e => rfl
  | none => cases hgap : Reading.gap? r.stack <;> simp only [bind, Except.bind, hgap] <;> rfl

theorem readAll_eq_ok {source : String} {forms : List Datum} (h : readAll source = .ok forms) :
    ∃ done, Reading.start.run (Lexed.ofText source.toList).tokens = .ok ⟨done, []⟩ ∧
      (Lexed.ofText source.toList).failure = none ∧ done.reverse = forms := by
  cases hr : Reading.start.run (Lexed.ofText source.toList).tokens with
  | error e => simp only [readAll, hr] at h; cases h
  | ok r =>
    rw [readAll_of_run hr] at h
    unfold Reading.result at h
    split at h
    · cases h
    · cases h
    · next hf hgap =>
      cases h
      obtain ⟨done, stack⟩ := r
      cases Reading.gap?_eq_none hgap
      exact ⟨done, rfl, hf, rfl⟩

/-- Whole lines at the front of a readable text are incomplete, or they and what follows them are
read one after the other. -/
theorem readAll_append {front rest : String} {forms : List Datum} (hl : AtLineEnd front.toList)
    (h : readAll (front ++ rest) = .ok forms) :
    (∃ gap, readAll front = .error (.incomplete gap)) ∨
      ∃ before after, readAll front = .ok before ∧ readAll rest = .ok after ∧
        before ++ after = forms := by
  obtain ⟨done, hrun, hfail, rfl⟩ := readAll_eq_ok h
  rw [String.toList_append] at hrun hfail
  -- The tokens of the front are the first tokens of the text, so they are read without an error.
  have hfront : ∀ {ts us}, Reading.start.run (ts ++ us) = .ok ⟨done, []⟩ →
      ∃ r, Reading.start.run ts = .ok r ∧ r.run us = .ok ⟨done, []⟩ := by
    intro ts us happ
    rw [Reading.run_append] at happ
    cases hts : Reading.start.run ts with
    | error e => rw [hts] at happ; cases happ
    | ok r => exact ⟨r, rfl, by rwa [hts] at happ⟩
  rcases Lexed.ofText_append hl hfail with ⟨hnone, hrest, heq⟩ | ⟨⟨gap, hgap⟩, more, hmore⟩
  · rw [heq] at hrun
    obtain ⟨⟨before, stack⟩, hbefore, hafter⟩ := hfront hrun
    cases hgap : Reading.gap? stack with
    | some gap =>
      refine .inl ⟨gap, ?_⟩
      simp only [readAll_of_run hbefore, hnone, Reading.result, hgap]
    | none =>
      cases Reading.gap?_eq_none hgap
      have honto := Reading.run_onto before Reading.start (Lexed.ofText rest.toList).tokens
      change Reading.run ⟨before, []⟩ _ = _ at honto
      rw [hafter] at honto
      cases hr : Reading.start.run (Lexed.ofText rest.toList).tokens with
      | error e => rw [hr] at honto; cases honto
      | ok r =>
        rw [hr] at honto
        obtain ⟨after, stack⟩ := r
        cases honto
        refine .inr ⟨before.reverse, after.reverse, ?_, ?_, ?_⟩
        · rw [readAll_of_run hbefore, hnone]
          rfl
        · rw [readAll_of_run hr, hrest]
          rfl
        · rw [List.reverse_append]
  · rw [← hmore] at hrun
    obtain ⟨r, hr, -⟩ := hfront hrun
    refine .inl ⟨gap, ?_⟩
    rw [readAll_of_run hr, hgap, Reading.result]

end Datum

end LiveScheme
