import LiveScheme.Datum.Token
import Mathlib.Data.List.TakeWhile

/-!
# Lexemes in context

A lexeme is cut off the front of a text, so what follows it decides where it ends. Words end at the
first character that breaks them: scanning a word in front of a break answers this word and leaves
the break. Conversely a word token is the front of the text that it was scanned from, and a word
that opens like a character is the last thing in its text.
-/

namespace LiveScheme

open Text

namespace Token

/-- A character that ends every token of more than one character, and begins no longer one. -/
def isGap (c : Char) : Bool := isBlank c || c == ')' || c == ']'

/-- The text is at its end or goes on with a blank or a closing bracket. -/
def AtGap (rest : List Char) : Prop := ∀ c ∈ rest.head?, isGap c = true

theorem atGap_cons {c : Char} (h : isGap c = true) (rest : List Char) : AtGap (c :: rest) := by
  intro d hd
  cases hd
  exact h

theorem isBreak_of_isBlank {c : Char} (h : isBlank c = true) : isBreak c = true := by
  simp [isBreak, h]

theorem isBreak_of_isGap {c : Char} (h : isGap c = true) : isBreak c = true := by
  simp only [isGap, Bool.or_eq_true, beq_iff_eq] at h
  rcases h with (h | rfl) | rfl
  · exact isBreak_of_isBlank h
  · decide
  · decide

theorem isWordChar_of_isBreak {c : Char} (h : isBreak c = true) : isWordChar c = false := by
  simp [isWordChar, h]

theorem isBreak_of_isWordChar {c : Char} (h : isWordChar c = true) : isBreak c = false := by
  cases hb : isBreak c with
  | false => rfl
  | true => rw [isWordChar_of_isBreak hb] at h; cases h

theorem isBlank_of_isWordChar {c : Char} (h : isWordChar c = true) : isBlank c = false := by
  cases hb : isBlank c with
  | false => rfl
  | true => rw [isWordChar_of_isBreak (isBreak_of_isBlank hb)] at h; cases h

theorem isWordChar_of_mem_boolWords {w : List Char} (h : w ∈ boolWords) :
    ∀ c ∈ w, isWordChar c = true := by
  revert w
  decide

theorem dropWhile_ne_nil {p : Char → Bool} {c : Char} {cs : List Char} (hc : c ∈ cs)
    (hp : p c = false) : cs.dropWhile p ≠ [] := fun hnil => by
  rw [List.dropWhile_eq_nil_iff.mp hnil c hc] at hp
  cases hp

section Stops

variable {p : Char → Bool} {cs more : List Char}

/-- What is left behind a run of characters goes on with the text, if the run stops within its
front or at the end of it. -/
theorem dropWhile_append_of_stops (h : cs.dropWhile p ≠ [] ∨ ∀ c ∈ more.head?, p c = false) :
    (cs ++ more).dropWhile p = cs.dropWhile p ++ more := by
  rw [List.dropWhile_append]
  split
  · next hempty =>
    have hnil : cs.dropWhile p = [] := List.isEmpty_iff.mp hempty
    have hmore := h.resolve_left (not_not_intro hnil)
    rw [hnil, List.nil_append]
    cases more with
    | nil => rfl
    | cons c more => exact List.dropWhile_cons_of_neg (by simp [hmore c rfl])
  · rfl

theorem takeWhile_append_of_stops (h : cs.dropWhile p ≠ [] ∨ ∀ c ∈ more.head?, p c = false) :
    (cs ++ more).takeWhile p = cs.takeWhile p := by
  have hwhole := List.takeWhile_append_dropWhile (p := p) (l := cs ++ more)
  rw [dropWhile_append_of_stops h, ← List.append_assoc] at hwhole
  have hfront := List.takeWhile_append_dropWhile (p := p) (l := cs)
  exact List.append_cancel_right ((List.append_cancel_right hwhole).trans hfront.symm)

/-- A run of characters that all satisfy `p`, up to one that does not. -/
theorem takeWhile_append_of_all (hw : ∀ c ∈ cs, p c = true) (hr : ∀ c ∈ more.head?, p c = false) :
    (cs ++ more).takeWhile p = cs := by
  rw [takeWhile_append_of_stops (.inr hr), List.takeWhile_eq_self_iff.mpr hw]

theorem dropWhile_append_of_all (hw : ∀ c ∈ cs, p c = true) (hr : ∀ c ∈ more.head?, p c = false) :
    (cs ++ more).dropWhile p = more := by
  rw [dropWhile_append_of_stops (.inr hr), List.dropWhile_eq_nil_iff.mpr hw, List.nil_append]

end Stops

/-- A text that no comment and no character literal begins. -/
def opensWord : List Char → Bool
  | '#' :: '|' :: _ | '#' :: '\\' :: _ => false
  | _ => true

/-- Word characters only, and not taken for a comment or for a character at their start. -/
structure IsWord (w : List Char) : Prop where
  ne_nil : w ≠ []
  chars : ∀ c ∈ w, isWordChar c = true
  opens : opensWord w = true

def ofWord (w : List Char) : Token := if boolWords.contains w then ⟨.bool, w⟩ else ⟨.word, w⟩

theorem ofWord_text (w : List Char) : (ofWord w).text = w := by
  unfold ofWord
  split <;> rfl

theorem scanWord_append {c : Char} {w rest : List Char} (hw : ∀ d ∈ c :: w, isWordChar d = true)
    (hr : AtGap rest) : scanWord c (w ++ rest) = .token (ofWord (c :: w)) rest := by
  have htail : ∀ d ∈ w, isWordChar d = true := fun d hd => hw d (List.mem_cons_of_mem c hd)
  have hwhole : (w ++ rest).takeWhile (fun d => !isBreak d) = w := by
    apply takeWhile_append_of_all
    · intro d hd
      simp [isBreak_of_isWordChar (htail d hd)]
    · intro d hd
      simp [isBreak_of_isGap (hr d hd)]
  have hword : ∀ d ∈ rest.head?, isWordChar d = false :=
    fun d hd => isWordChar_of_isBreak (isBreak_of_isGap (hr d hd))
  simp only [scanWord, hwhole, ofWord, takeWhile_append_of_all htail hword,
    dropWhile_append_of_all htail hword]
  split <;> simp

theorem scanHash_eq_scanWord {cs : List Char}
    (h : ∀ c ∈ cs.head?, c ≠ '|' ∧ c ≠ ';' ∧ c ≠ '(' ∧ c ≠ '\\') :
    scanHash cs = scanWord '#' cs := by
  unfold scanHash
  split
  · exact absurd rfl (h _ rfl).1
  · exact absurd rfl (h _ rfl).2.1
  · exact absurd rfl (h _ rfl).2.2.1
  · exact absurd rfl (h _ rfl).2.2.2
  · rfl

theorem scanHash_append {w rest : List Char} (hw : IsWord ('#' :: w)) (hr : AtGap rest) :
    scanHash (w ++ rest) = .token (ofWord ('#' :: w)) rest := by
  rw [← scanWord_append hw.chars hr]
  apply scanHash_eq_scanWord
  intro c hc
  cases w with
  | nil =>
    have hgap : isGap c = true := hr c hc
    refine ⟨?_, ?_, ?_, ?_⟩ <;> rintro rfl <;> revert hgap <;> decide
  | cons d w =>
    cases hc
    have hchar : isWordChar c = true := hw.chars c (by simp)
    have hopens : opensWord ('#' :: c :: w) = true := hw.opens
    refine ⟨?_, ?_, ?_, ?_⟩ <;> rintro rfl
    · simp [opensWord] at hopens
    · revert hchar; decide
    · revert hchar; decide
    · simp [opensWord] at hopens

/-- A character that begins a word or what looks like one. -/
theorem scan_cons_of_isWordChar {c : Char} (hc : isWordChar c = true) (rest : List Char) :
    scan (c :: rest) = if c = '#' then scanHash rest else scanWord c rest := by
  have hne : ∀ d : Char, isWordChar d = false → c ≠ d := by
    rintro d hd rfl
    rw [hc] at hd
    cases hd
  have h1 := hne ';' (by decide)
  have h2 := hne '\x27' (by decide)
  have h3 := hne '\x60' (by decide)
  have h4 := hne ',' (by decide)
  have h5 := hne '(' (by decide)
  have h6 := hne '[' (by decide)
  have h7 := hne ')' (by decide)
  have h8 := hne ']' (by decide)
  have h9 := hne '\x22' (by decide)
  simp [scan, h1, h2, h3, h4, h5, h6, h7, h8, h9]

/-- A word in front of a gap is one token. -/
theorem scan_word_append {w rest : List Char} (hw : IsWord w) (hr : AtGap rest) :
    scan (w ++ rest) = .token (ofWord w) rest := by
  cases w with
  | nil => exact absurd rfl hw.ne_nil
  | cons c w =>
    rw [List.cons_append, scan_cons_of_isWordChar (hw.chars c (by simp))]
    split
    · next h => subst h; exact scanHash_append hw hr
    · exact scanWord_append hw.chars hr

theorem scanText_token {body cs rest : List Char} {t : Token}
    (h : scanText body cs = .token t rest) :
    t.kind = .text ∧ '\x22' :: body.reverse ++ cs = t.text ++ rest := by
  fun_induction scanText body cs with
  | case1 => cases h
  | case2 => cases h
  | case3 body c more ih => simpa using ih h
  | case4 body more =>
    cases h
    simp
  | case5 body c more _ _ ih => simpa using ih h

theorem drop_length_takeWhile (p : Char → Bool) (cs : List Char) :
    cs.drop (cs.takeWhile p).length = cs.dropWhile p := by
  induction cs with
  | nil => rfl
  | cons c rest ih => by_cases h : p c = true <;> simp [h, ih]

theorem take_length_takeWhile (p : Char → Bool) (cs : List Char) :
    cs.take (cs.takeWhile p).length = cs.takeWhile p :=
  (List.prefix_iff_eq_take.mp (List.takeWhile_prefix p)).symm

theorem head_dropWhile {p : Char → Bool} {cs : List Char} :
    ∀ c ∈ (cs.dropWhile p).head?, p c = false := by
  intro c hc
  have hstop := List.head?_dropWhile_not p cs
  rw [Option.mem_def.mp hc] at hstop
  simpa using hstop

theorem scanChar_token {c : Char} {cs rest : List Char} {t : Token}
    (h : scanChar c cs = .token t rest) :
    t.kind = .char ∧ '#' :: '\\' :: c :: cs = t.text ++ rest := by
  simp only [scanChar] at h
  cases h
  refine ⟨rfl, ?_⟩
  split <;> simp [drop_length_takeWhile]

theorem scanWord_token {c : Char} {cs rest : List Char} {t : Token}
    (h : scanWord c cs = .token t rest) :
    (t.kind = .word → t.text = c :: cs.takeWhile isWordChar) ∧ c :: cs = t.text ++ rest := by
  simp only [scanWord] at h
  split at h
  · cases h
    refine ⟨fun hkind => ?_, ?_⟩
    · cases hkind
    · simp [drop_length_takeWhile]
  · cases h
    exact ⟨fun _ => rfl, by simp⟩

theorem scanHash_token {cs rest : List Char} {t : Token} (h : scanHash cs = .token t rest) :
    '#' :: cs = t.text ++ rest := by
  unfold scanHash at h
  split at h
  · split at h <;> cases h
  · cases h
    rfl
  · cases h
    rfl
  · exact (scanChar_token h).2
  · exact (scanWord_token h).2

theorem scanComma_token {cs rest : List Char} {t : Token} (h : scanComma cs = .token t rest) :
    t.kind = .unquote ∧ ',' :: cs = t.text ++ rest := by
  unfold scanComma at h
  split at h <;> cases h <;> exact ⟨rfl, rfl⟩

/-- A token is the front of the text that it is scanned from. -/
theorem eq_append_of_scan {cs rest : List Char} {t : Token} (h : scan cs = .token t rest) :
    cs = t.text ++ rest := by
  cases cs with
  | nil => cases h
  | cons c cs =>
    simp only [scan] at h
    split at h
    · cases h
    split at h
    · next hc => subst hc; exact scanHash_token h
    split at h
    · cases h; rfl
    split at h
    · next hc => subst hc; exact (scanComma_token h).2
    split at h
    · cases h; rfl
    split at h
    · cases h; rfl
    split at h
    · next hc => subst hc; simpa using (scanText_token h).2
    · exact (scanWord_token h).2

theorem opensWord_of_ne {c : Char} {cs : List Char}
    (h : c = '#' → ∀ d ∈ cs.head?, d ≠ '|' ∧ d ≠ '\\') : opensWord (c :: cs) = true := by
  unfold opensWord
  split
  · next heq => cases heq; exact absurd rfl (h rfl _ rfl).1
  · next heq => cases heq; exact absurd rfl (h rfl _ rfl).2
  · rfl

theorem isWord_cons_takeWhile {c : Char} {cs : List Char} (hc : isWordChar c = true)
    (ho : c = '#' → ∀ d ∈ cs.head?, d ≠ '|' ∧ d ≠ '\\') :
    IsWord (c :: cs.takeWhile isWordChar) where
  ne_nil := by simp
  chars := by
    intro d hd
    rcases List.mem_cons.mp hd with rfl | hd
    · exact hc
    · exact List.mem_takeWhile_imp hd
  opens := by
    apply opensWord_of_ne
    intro heq d hd
    rw [List.head?_takeWhile, Option.mem_def, Option.filter_eq_some_iff] at hd
    exact ho heq d hd.1

/-- A word token is a word, but for the beginning of a character at the end of a text. -/
theorem isWord_of_scanHash {cs rest : List Char} {t : Token} (h : scanHash cs = .token t rest)
    (hk : t.kind = .word) : IsWord t.text ∨ t.text = ['#', '\\'] ∧ rest = [] := by
  unfold scanHash at h
  split at h
  · split at h <;> cases h
  · cases h
    cases hk
  · cases h
    cases hk
  · rw [(scanChar_token h).1] at hk
    cases hk
  · next hbar _ _ hslash =>
    have ht := (scanWord_token h).1 hk
    have happ := (scanWord_token h).2
    by_cases hcs : cs = ['\\']
    · subst hcs
      right
      rw [ht] at happ ⊢
      exact ⟨rfl, by simpa [List.takeWhile, show isWordChar '\\' = true from by decide] using happ⟩
    · left
      rw [ht]
      refine isWord_cons_takeWhile (by decide) fun _ d hd => ?_
      obtain ⟨more, rfl⟩ := List.head?_eq_some_iff.mp hd
      constructor
      · rintro rfl
        exact hbar more rfl
      · rintro rfl
        cases more with
        | nil => exact hcs rfl
        | cons e more => exact hslash e more rfl

theorem isWord_of_scan {cs rest : List Char} {t : Token} (hb : ∀ c ∈ cs.head?, isBlank c = false)
    (h : scan cs = .token t rest) (hk : t.kind = .word) :
    IsWord t.text ∨ t.text = ['#', '\\'] ∧ rest = [] := by
  cases cs with
  | nil => cases h
  | cons c cs =>
    have hblank : isBlank c = false := hb c rfl
    simp only [scan] at h
    split at h
    · cases h
    split at h
    · exact isWord_of_scanHash h hk
    split at h
    · cases h; cases hk
    split at h
    · rw [(scanComma_token h).1] at hk; cases hk
    split at h
    · cases h; cases hk
    split at h
    · cases h; cases hk
    split at h
    · rw [(scanText_token h).1] at hk; cases hk
    · left
      rw [(scanWord_token h).1 hk]
      apply isWord_cons_takeWhile
      · simp_all [isWordChar, isBreak]
      · rintro rfl
        contradiction

end Token

end LiveScheme
