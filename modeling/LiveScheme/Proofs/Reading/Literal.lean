import LiveScheme.Datum.Atom
import LiveScheme.Datum.Printer
import LiveScheme.Proofs.Reading.Lexeme

/-!
# Written literals

What the printer writes for an integer, a string or a character is one token in front of any gap,
and the token denotes what was written: the digits of an integer have its value, the escapes of a
string are undone, and the names of characters are known to the reader. A real is written as one
word, too, but which real that word denotes is left open.
-/

namespace LiveScheme

open Text

namespace Literal

theorem mem_digits_of_isDigit {c : Char} (h : c.isDigit = true) :
    c ∈ ['0', '1', '2', '3', '4', '5', '6', '7', '8', '9'] := by
  simp only [Char.isDigit, Bool.and_eq_true, decide_eq_true_eq, ge_iff_le,
    UInt32.le_iff_toNat_le] at h
  have hcodes : ∀ n ≤ 57, 48 ≤ n →
      Char.ofNat n ∈ ['0', '1', '2', '3', '4', '5', '6', '7', '8', '9'] := by decide
  rw [← Char.ofNat_toNat c]
  exact hcodes c.toNat h.2 h.1

/-- A fact about the ten digits. -/
theorem forall_isDigit {p : Char → Prop}
    (h : ∀ c ∈ ['0', '1', '2', '3', '4', '5', '6', '7', '8', '9'], p c) {c : Char}
    (hc : c.isDigit = true) : p c :=
  h c (mem_digits_of_isDigit hc)

theorem digitIn?_ten {c : Char} (h : c.isDigit = true) :
    digitIn? 10 c = some (c.toNat - '0'.toNat) :=
  forall_isDigit (p := fun c => digitIn? 10 c = some (c.toNat - '0'.toNat)) (by decide) h

theorem digitsFrom_ten {cs : List Char} (h : ∀ c ∈ cs, c.isDigit = true) (value : Nat) :
    digitsFrom 10 value cs = some (Nat.ofDigitChars 10 cs value) := by
  induction cs generalizing value with
  | nil => simp [digitsFrom]
  | cons c rest ih =>
    have hc : c.isDigit = true := h c (by simp)
    have hne : c ≠ '_' := forall_isDigit (p := fun c => c ≠ '_') (by decide) hc
    rw [digitsFrom.eq_3 _ _ _ _ (by rintro d more rfl; exact absurd rfl hne)]
    rw [digitIn?_ten hc, Option.bind_some, ih fun d hd => h d (List.mem_cons_of_mem c hd),
      Nat.ofDigitChars_cons, Nat.mul_comm]

theorem digits?_ten {cs : List Char} (h : ∀ c ∈ cs, c.isDigit = true) (hne : cs ≠ []) :
    digits? 10 cs = some (Nat.ofDigitChars 10 cs 0) := by
  cases cs with
  | nil => exact absurd rfl hne
  | cons c rest =>
    rw [digits?, digitIn?_ten (h c (by simp)), Option.bind_some,
      digitsFrom_ten fun d hd => h d (List.mem_cons_of_mem c hd), Nat.ofDigitChars_cons]
    simp

theorem dropBaseMark_ten (cs : List Char) : dropBaseMark 10 cs = cs := by
  unfold dropBaseMark
  split
  · simp [baseMarks]
  · rfl

theorem dropWhile_of_forall {p : Char → Bool} {cs : List Char} (h : ∀ c ∈ cs, p c = false) :
    cs.dropWhile p = cs := by
  cases cs with
  | nil => rfl
  | cons c rest => simp [h c (by simp)]

/-- Nothing is trimmed from a text without blanks. -/
theorem plainText_eq_map {cs : List Char} (h : ∀ c ∈ cs, isPlainBlank (plain c) = false) :
    plainText cs = cs.map plain := by
  have hsolid : ∀ c ∈ cs.map plain, isPlainBlank c = false := List.forall_mem_map.mpr h
  have hback : (cs.map plain).reverse.dropWhile isPlainBlank = (cs.map plain).reverse :=
    dropWhile_of_forall fun c hc => hsolid c (List.mem_reverse.mp hc)
  rw [plainText, dropWhile_of_forall hsolid, dropEnd, hback, List.reverse_reverse]

theorem plainText_of_forall {cs : List Char}
    (h : ∀ c ∈ cs, plain c = c ∧ isPlainBlank c = false) : plainText cs = cs := by
  have hmap : cs.map plain = cs := by
    conv => rhs; rw [← List.map_id cs]
    exact List.map_congr_left fun c hc => (h c hc).1
  rw [plainText_eq_map fun c hc => by rw [(h c hc).1, (h c hc).2], hmap]

/-- The characters of a written integer. -/
theorem toList_toString (n : Int) :
    (toString n).toList = (if n < 0 then ['-'] else []) ++ Nat.toDigits 10 n.natAbs := by
  rw [Int.toString_eq_repr, Int.repr_eq_if]
  by_cases h : 0 ≤ n
  · rw [if_pos h, if_neg (by omega), Nat.toList_repr, show n.toNat = n.natAbs by omega,
      List.nil_append]
  · rw [if_neg h, if_pos (by omega), String.toList_append, Nat.toList_repr,
      show (-n).toNat = n.natAbs by omega]
    rfl

/-- The characters of a written integer are a sign, if it is negative, and digits. -/
theorem forall_toString {p : Char → Prop} (hs : p '-')
    (hd : ∀ c ∈ ['0', '1', '2', '3', '4', '5', '6', '7', '8', '9'], p c) {n : Int} {c : Char}
    (hc : c ∈ (toString n).toList) : p c := by
  rw [toList_toString, List.mem_append] at hc
  rcases hc with hc | hc
  · split at hc
    · rw [List.mem_singleton.mp hc]
      exact hs
    · cases hc
  · exact forall_isDigit hd (Nat.isDigit_of_mem_toDigits (by decide) (by decide) hc)

theorem plainText_toString (n : Int) : plainText (toString n).toList = (toString n).toList := by
  apply plainText_of_forall
  exact fun _ hc => forall_toString (p := fun c => plain c = c ∧ isPlainBlank c = false)
    (by decide) (by decide) hc

theorem splitSign_toDigits (n : Nat) :
    splitSign (Nat.toDigits 10 n) = (false, Nat.toDigits 10 n) := by
  have hd : ∀ c ∈ Nat.toDigits 10 n, c.isDigit = true := fun c hc =>
    Nat.isDigit_of_mem_toDigits (by decide) (by decide) hc
  unfold splitSign
  split
  · next heq => exact absurd (hd '-' (by simp [heq])) (by decide)
  · next heq => exact absurd (hd '+' (by simp [heq])) (by decide)
  · rfl

theorem splitSign_toString (n : Int) :
    splitSign (toString n).toList = (decide (n < 0), Nat.toDigits 10 n.natAbs) := by
  rw [toList_toString]
  by_cases h : n < 0
  · rw [if_pos h, decide_eq_true h]
    rfl
  · rw [if_neg h, decide_eq_false h, List.nil_append, splitSign_toDigits]

theorem integer?_toString (n : Int) : integer? 10 (toString n).toList = some n := by
  have hdigits : digits? 10 (Nat.toDigits 10 n.natAbs) = some n.natAbs := by
    rw [digits?_ten (fun c hc => Nat.isDigit_of_mem_toDigits (by decide) (by decide) hc)
      Nat.toDigits_ne_nil, Nat.ofDigitChars_ten_toDigits]
  simp only [integer?, plainText_toString, splitSign_toString, dropBaseMark_ten, hdigits,
    Option.bind_eq_bind, Option.bind_some, Option.pure_def, Option.map_some, decide_eq_true_eq,
    Option.some.injEq]
  split <;> omega

end Literal

namespace Atom

theorem toString_ne_nil (n : Int) : (toString n).toList ≠ [] := by
  rw [Literal.toList_toString]
  exact List.append_ne_nil_of_right_ne_nil _ Nat.toDigits_ne_nil

theorem isInteger_toString (n : Int) : isInteger (toString n).toList = true := by
  have hd : ∀ c ∈ Nat.toDigits 10 n.natAbs, isDecimal c = true := fun c hc =>
    Literal.forall_isDigit (p := fun c => isDecimal c = true) (by decide)
      (Nat.isDigit_of_mem_toDigits (by decide) (by decide) hc)
  have hall : (Nat.toDigits 10 n.natAbs).all isDecimal = true := List.all_eq_true.mpr hd
  have hne : Nat.toDigits 10 n.natAbs ≠ [] := Nat.toDigits_ne_nil
  rw [Literal.toList_toString]
  split
  · simp [isInteger, isSign, hall, hne]
  · generalize Nat.toDigits 10 n.natAbs = ds at hall hne
    cases ds with
    | nil => exact absurd rfl hne
    | cons c rest => simp only [List.nil_append, isInteger, hall, Bool.true_or]

theorem word_toString (n : Int) : word (toString n).toList = .ok (.int n) := by
  rw [word, if_pos (isInteger_toString n), Literal.integer?_toString, Option.getD_some]

end Atom

namespace Token

theorem isWord_of_forall {w : List Char} (hne : w ≠ [])
    (h : ∀ c ∈ w, isWordChar c = true ∧ c ≠ '#') : IsWord w where
  ne_nil := hne
  chars c hc := (h c hc).1
  opens := by
    cases w with
    | nil => exact absurd rfl hne
    | cons c rest => exact opensWord_of_ne fun heq => absurd heq (h c List.mem_cons_self).2

theorem ofWord_not_mem {w : List Char} (hk : (ofWord w).kind = .word) :
    boolWords.contains (ofWord w).text = false := by
  rw [ofWord_text]
  cases hb : boolWords.contains w with
  | false => rfl
  | true =>
    rw [ofWord, hb] at hk
    cases hk

theorem ofWord_of_not_mem {w : List Char} (h : '#' ∉ w) : ofWord w = ⟨.word, w⟩ := by
  rw [ofWord, if_neg]
  intro hb
  have hmem : ∀ w ∈ boolWords, '#' ∈ w := by decide
  exact h (hmem _ (List.contains_iff_mem.mp hb))

/-- The characters of a written integer are characters of words. -/
theorem isWordChar_toString {n : Int} {c : Char} (hc : c ∈ (toString n).toList) :
    isWordChar c = true ∧ c ≠ '#' :=
  Literal.forall_toString (p := fun c => isWordChar c = true ∧ c ≠ '#') (by decide) (by decide) hc

theorem isWord_toString (n : Int) : IsWord (toString n).toList :=
  isWord_of_forall (Atom.toString_ne_nil n) fun _ hc => isWordChar_toString hc

theorem ofWord_toString (n : Int) : ofWord (toString n).toList = ⟨.word, (toString n).toList⟩ :=
  ofWord_of_not_mem fun hc => (isWordChar_toString hc).2 rfl

end Token

namespace Decimal

theorem two_le_length_write (f : NumeralStyle) (d : Digits) : 2 ≤ (f.write d).length := by
  have hne : 0 < (Nat.toDigits 10 d.digits).length :=
    List.length_pos_iff.mpr Nat.toDigits_ne_nil
  unfold NumeralStyle.write
  dsimp only
  split
  · simp only [List.length_append, List.length_cons, List.length_take]
    omega
  split
  · simp only [List.length_append, List.length_cons]
    omega
  split
  · simp only [List.length_append, List.length_cons]
    omega
  · simp only [List.length_append, List.length_cons, List.length_take, List.length_drop]
    omega

section Characters

variable {p : Char → Prop} (hd : ∀ c : Char, c.isDigit = true → p c)
  (hm : ∀ c ∈ ['.', 'e', '-', '+'], p c)

include hd

theorem forall_toDigits (n : Nat) : ∀ c ∈ Nat.toDigits 10 n, p c := fun c hc =>
  hd c (Nat.isDigit_of_mem_toDigits (by decide) (by decide) hc)

theorem forall_zeros (n : Nat) : ∀ c ∈ List.replicate n '0', p c := fun c hc =>
  (List.mem_replicate.mp hc).2 ▸ hd '0' (by decide)

include hm

/-- A decimal number is written with digits, a point, signs and the mark of an exponent. -/
theorem forall_write (f : NumeralStyle) (d : Digits) : ∀ c ∈ f.write d, p c := by
  have hds := forall_toDigits hd d.digits
  have hzeros := forall_zeros hd
  have htake : ∀ n, ∀ c ∈ (Nat.toDigits 10 d.digits).take n, p c := fun n c hc =>
    hds c (List.mem_of_mem_take hc)
  have hdrop : ∀ n, ∀ c ∈ (Nat.toDigits 10 d.digits).drop n, p c := fun n c hc =>
    hds c (List.mem_of_mem_drop hc)
  have happend : ∀ {as bs : List Char}, (∀ c ∈ as, p c) → (∀ c ∈ bs, p c) → ∀ c ∈ as ++ bs, p c :=
    fun has hbs => List.forall_mem_append.mpr ⟨has, hbs⟩
  have hcons : ∀ {c : Char} {cs : List Char}, p c → (∀ c ∈ cs, p c) → ∀ d ∈ c :: cs, p d :=
    fun hc hcs => List.forall_mem_cons.mpr ⟨hc, hcs⟩
  have hpoint : p '.' := hm '.' (by simp)
  unfold NumeralStyle.write
  dsimp only
  split
  · refine happend (happend (htake 1) ?_) (hcons (hm 'e' (by simp)) (hcons ?_ ?_))
    · split
      · exact List.forall_mem_nil _
      · exact hcons hpoint (hdrop 1)
    · split
      · exact hm '-' (by simp)
      · exact hm '+' (by simp)
    · exact happend (hzeros _) (forall_toDigits hd _)
  split
  · exact hcons (hd '0' (by decide)) (hcons hpoint (happend (hzeros _) hds))
  split
  · exact happend (happend hds (hzeros _)) (hcons hpoint (hcons (hd '0' (by decide)) nofun))
  · exact happend (htake _) (hcons hpoint (hdrop _))

end Characters

end Decimal

namespace Printer

theorem two_le_length_writeReal (x : Float) : 2 ≤ (writeReal x).length := by
  unfold writeReal
  split
  · decide
  split
  · split <;> decide
  unfold Decimal.writeFinite
  dsimp only
  have hbody : 2 ≤ (if (Decimal.Dyadic.ofFloat x).mantissa = 0 then ['0', '.', '0'] else
      Decimal.plainStyle.write (Decimal.shortest (Decimal.Dyadic.ofFloat x))).length := by
    split
    · decide
    · exact Decimal.two_le_length_write _ _
  split
  · exact Nat.le_succ_of_le hbody
  · exact hbody

/-- The characters of a written real are characters of words. -/
theorem isWordChar_writeReal (x : Float) :
    ∀ c ∈ writeReal x, Token.isWordChar c = true ∧ c ≠ '#' := by
  have hd : ∀ c : Char, c.isDigit = true → Token.isWordChar c = true ∧ c ≠ '#' := fun c hc =>
    Literal.forall_isDigit (p := fun c => Token.isWordChar c = true ∧ c ≠ '#') (by decide) hc
  unfold writeReal
  split
  · decide
  split
  · split <;> decide
  unfold Decimal.writeFinite
  dsimp only
  have hbody : ∀ c ∈ (if (Decimal.Dyadic.ofFloat x).mantissa = 0 then ['0', '.', '0'] else
      Decimal.plainStyle.write (Decimal.shortest (Decimal.Dyadic.ofFloat x))),
      Token.isWordChar c = true ∧ c ≠ '#' := by
    split
    · decide
    · exact Decimal.forall_write hd (by decide) _ _
  split
  · exact List.forall_mem_cons.mpr ⟨by decide, hbody⟩
  · exact hbody

theorem isWord_writeReal (x : Float) : Token.IsWord (writeReal x) := by
  refine Token.isWord_of_forall (fun h => ?_) (isWordChar_writeReal x)
  have hlength := two_le_length_writeReal x
  rw [h] at hlength
  exact absurd hlength (by decide)

/-- A way to escape characters that the reader undoes: a character is escaped by a letter that
denotes it, or stands for itself. -/
def Escapes (f : Char → List Char) : Prop :=
  ∀ c, (∃ e ∈ ['\\', '\x22', 'n', 't', 'r'], f c = ['\\', e] ∧ Atom.escaped e = c) ∨
    f c = [c] ∧ c ≠ '\\' ∧ c ≠ '\x22'

theorem escapeChar_cases : Escapes escapeChar := by
  intro c
  unfold escapeChar
  split
  · next h => exact .inl ⟨'\\', by simp, rfl, by rw [h]; decide⟩
  split
  · next h => exact .inl ⟨'\x22', by simp, rfl, by rw [h]; decide⟩
  split
  · next h => exact .inl ⟨'n', by simp, rfl, by rw [h]; decide⟩
  split
  · next h => exact .inl ⟨'t', by simp, rfl, by rw [h]; decide⟩
  split
  · next h => exact .inl ⟨'r', by simp, rfl, by rw [h]; decide⟩
  · next h1 h2 _ _ _ => exact .inr ⟨rfl, h1, h2⟩

theorem escape_cons (c : Char) (cs : List Char) : escape (c :: cs) = escapeChar c ++ escape cs :=
  rfl

end Printer

open Printer

namespace Token

theorem scanText_escaped {f : Char → List Char} (hf : Escapes f) (body cs rest : List Char) :
    scanText body (cs.flatMap f ++ '\x22' :: rest) =
      .token ⟨.text, '\x22' :: body.reverse ++ cs.flatMap f ++ ['\x22']⟩ rest := by
  induction cs generalizing body with
  | nil => simp [scanText]
  | cons c cs ih =>
    rw [List.flatMap_cons]
    rcases hf c with ⟨e, -, he, -⟩ | ⟨he, hslash, hquote⟩
    · rw [he]
      simp only [List.cons_append, List.nil_append, scanText, ih]
      simp
    · rw [he]
      simp only [List.cons_append, List.nil_append]
      rw [scanText.eq_4 _ _ _ (by simpa using hslash), if_neg hquote, ih]
      simp

/-- A text between quotation marks, with its characters escaped, is one token. -/
theorem scan_quoted_append {f : Char → List Char} (hf : Escapes f) (cs rest : List Char) :
    scan ('\x22' :: cs.flatMap f ++ ['\x22'] ++ rest) =
      .token ⟨.text, '\x22' :: cs.flatMap f ++ ['\x22']⟩ rest := by
  have h := scanText_escaped hf [] cs rest
  simp only [List.reverse_nil] at h
  simpa [scan] using h

end Token

namespace Atom

theorem unescape_escaped {e : Char} (hx : e ≠ 'x') (hn : e ≠ '\n') (rest : List Char) :
    unescape ('\\' :: e :: rest) = do return escaped e :: (← unescape rest) := by
  rw [unescape]
  · simpa using hx
  · simpa using hn

theorem unescape_plain {c : Char} (h : c ≠ '\\') (rest : List Char) :
    unescape (c :: rest) = do return c :: (← unescape rest) := by
  rw [unescape]
  all_goals
    intros
    contradiction

theorem unescape_flatMap {f : Char → List Char} (hf : Escapes f) (cs : List Char) :
    unescape (cs.flatMap f) = .ok cs := by
  induction cs with
  | nil => simp [unescape]
  | cons c cs ih =>
    rw [List.flatMap_cons]
    rcases hf c with ⟨e, hmem, he, hc⟩ | ⟨he, hslash, -⟩
    · have hx : e ≠ 'x' := by rintro rfl; revert hmem; decide
      have hn : e ≠ '\n' := by rintro rfl; revert hmem; decide
      rw [he, List.cons_append, List.singleton_append, unescape_escaped hx hn, ih, hc]
      rfl
    · rw [he, List.singleton_append, unescape_plain hslash, ih]
      rfl

end Atom

namespace Printer

/-- The reader knows the names that the printer gives to characters. -/
theorem char_of_charName? {c : Char} {name : String} (h : charName? c = some name) :
    Atom.char name.toList = .ok c ∧ (∀ d ∈ name.toList, Token.isLetter d = true) ∧
      name.toList ≠ [] := by
  unfold charName? at h
  repeat' split at h
  all_goals cases h
  all_goals
    subst_vars
    exact ⟨rfl, by decide, by decide⟩

theorem char_drop_writeChar (c : Char) : Atom.char ((writeChar c).drop 2) = .ok c := by
  unfold writeChar
  split
  · next name h => exact (char_of_charName? h).1
  · rfl

end Printer

namespace Token

theorem isGap_of_isLetterOrDigit {c : Char} (h : isLetterOrDigit c = true) : isGap c = false := by
  have hbound : c.toNat < 128 := by
    simp only [isLetterOrDigit, isLetter, Bool.or_eq_true, Bool.and_eq_true, decide_eq_true_eq,
      Char.le_def, UInt32.le_iff_toNat_le] at h
    change c.val.toNat < 128
    rcases h with (⟨-, h⟩ | ⟨-, h⟩) | ⟨-, h⟩ <;> exact Nat.lt_of_le_of_lt h (by decide)
  have hcodes : ∀ n < 128,
      isLetterOrDigit (Char.ofNat n) = true → isGap (Char.ofNat n) = false := by
    decide
  have hc := hcodes c.toNat hbound
  rw [Char.ofNat_toNat] at hc
  exact hc h

theorem scanChar_append {c : Char} {name rest : List Char}
    (hn : ∀ d ∈ name, isLetterOrDigit d = true) (hc : isLetter c = true ∨ name = [])
    (hr : AtGap rest) :
    scanChar c (name ++ rest) = .token ⟨.char, '#' :: '\\' :: c :: name⟩ rest := by
  have hgap : ∀ d ∈ rest.head?, isLetterOrDigit d = false := by
    intro d hd
    cases hl : isLetterOrDigit d with
    | false => rfl
    | true => exact absurd (hr d hd) (by simp [isGap_of_isLetterOrDigit hl])
  have htake := takeWhile_append_of_all hn hgap
  rcases hc with hc | rfl
  · simp [scanChar, hc, htake]
  · by_cases hc : isLetter c = true
    · simp only [scanChar, hc, if_true, htake]
      simp
    · simp [scanChar, hc]

/-- A written character is one token in front of a gap. -/
theorem scan_writeChar_append (c : Char) {rest : List Char} (hr : AtGap rest) :
    scan (writeChar c ++ rest) = .token ⟨.char, writeChar c⟩ rest := by
  unfold writeChar
  split
  · next name h =>
    obtain ⟨-, hletters, hne⟩ := char_of_charName? h
    generalize name.toList = cs at hletters hne
    cases cs with
    | nil => exact absurd rfl hne
    | cons d cs =>
      have hd : isLetter d = true := hletters d (by simp)
      have hrest : ∀ e ∈ cs, isLetterOrDigit e = true := fun e he => by
        simp [isLetterOrDigit, hletters e (List.mem_cons_of_mem d he)]
      exact scanChar_append hrest (.inl hd) hr
  · exact scanChar_append (List.forall_mem_nil _) (.inr rfl) hr

theorem scan_writeText_append (cs rest : List Char) :
    scan (writeText cs ++ rest) = .token ⟨.text, writeText cs⟩ rest :=
  scan_quoted_append escapeChar_cases cs rest

end Token

end LiveScheme
