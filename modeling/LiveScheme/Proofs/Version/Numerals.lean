import LiveScheme.Proofs.Buffer.Callee
import LiveScheme.Proofs.Reading.Literal
import LiveScheme.Version

/-!
# The numbers of a version

The numbers of a version are written by the runs of digits that its parts begin with, up to the
first part that begins with none. Every character that counts as a digit belongs to a run, but only
decimal digits have a value, in whatever script: a superscript or a circled digit spoils the whole
version. A text that is written from numbers gives them back, unless the text goes on behind them
with a part that begins with a digit.
-/

namespace LiveScheme

open Text

namespace Text

theorem decimalValue?_eq_some {c : Char} {d : Nat} (h : decimalValue? c = some d) :
    ∃ z ∈ scriptZeros, c.toNat = z + d ∧ d ≤ 9 := by
  rw [decimalValue?, Option.map_eq_some_iff] at h
  obtain ⟨z, hz, rfl⟩ := h
  have hrange := List.find?_some hz
  simp only [Bool.and_eq_true, decide_eq_true_eq] at hrange
  exact ⟨z, List.mem_of_find?_eq_some hz, by omega, by omega⟩

/-- The digits of all scripts lie in ranges that hold no blank. -/
theorem isBlank_of_isDigit {c : Char} (h : isDigit c = true) : isBlank c = false := by
  have hscripts : ∀ z ∈ scriptZeros, ∀ r ∈ blankRanges, r.2 < z ∨ z + 9 < r.1 := by decide
  have hothers : ∀ s ∈ otherDigitRanges, ∀ r ∈ blankRanges, r.2 < s.1 ∨ s.2 < r.1 := by decide
  rw [Bool.eq_false_iff, isBlank, Ne, inRanges_iff]
  rintro ⟨r, hr, hlow, hhigh⟩
  rw [isDigit, Bool.or_eq_true, isDecimal, Option.isSome_iff_exists, inRanges_iff] at h
  obtain ⟨d, hd⟩ | ⟨s, hs, hslow, hshigh⟩ := h
  · obtain ⟨z, hz, hc, hle⟩ := decimalValue?_eq_some hd
    have hapart := hscripts z hz r hr
    omega
  · have hapart := hothers s hs r hr
    omega

theorem not_isDigit_dot : isDigit '.' = false := by decide

end Text

namespace Literal

/-- A decimal digit of any script becomes the ASCII digit of its value. -/
theorem plain_of_decimalValue? {c : Char} {d : Nat} (h : decimalValue? c = some d) :
    plain c = Char.ofNat (48 + d) := by
  have hascii : ∀ z ∈ scriptZeros, z < 128 → z = 48 := by decide
  obtain ⟨z, hz, hc, -⟩ := decimalValue?_eq_some h
  have hdigit : isDigit c = true := by rw [isDigit, isDecimal, h]; rfl
  rw [plain]
  split
  · next hlow =>
    obtain rfl := hascii z hz (by omega)
    rw [← hc, Char.ofNat_toNat]
  · rw [isBlank_of_isDigit hdigit, h]
    rfl

/-- A digit without a decimal value fits no literal. -/
theorem plain_of_not_isDecimal {c : Char} (hdigit : isDigit c = true)
    (h : isDecimal c = false) : plain c = '?' := by
  have hforeign : ∀ s ∈ otherDigitRanges, 128 ≤ s.1 := by decide
  have hnone : decimalValue? c = none := by rwa [isDecimal, Option.isSome_eq_false_iff,
    Option.isNone_iff_eq_none] at h
  have hrange := hdigit
  rw [isDigit, h, Bool.false_or, inRanges_iff] at hrange
  obtain ⟨s, hs, hlow, -⟩ := hrange
  have hhigh := hforeign s hs
  rw [plain, if_neg (by omega), isBlank_of_isDigit hdigit, hnone]
  rfl

/-- What holds of the ASCII digits and of the mark for foreign characters holds of whatever a digit
becomes. -/
theorem forall_plain {p : Char → Prop} (hcodes : ∀ d ≤ 9, p (Char.ofNat (48 + d))) (hmark : p '?')
    {c : Char} (h : isDigit c = true) : p (plain c) := by
  cases hd : decimalValue? c with
  | some d =>
    obtain ⟨-, -, -, hle⟩ := decimalValue?_eq_some hd
    rw [plain_of_decimalValue? hd]
    exact hcodes d hle
  | none =>
    rw [plain_of_not_isDecimal h (by rw [isDecimal, hd]; rfl)]
    exact hmark

theorem digitsFrom_eq_none {cs : List Char} (hplain : ∀ c ∈ cs, c ≠ '_')
    (h : ∃ c ∈ cs, digitIn? 10 c = none) (value : Nat) : digitsFrom 10 value cs = none := by
  induction cs generalizing value with
  | nil =>
    obtain ⟨c, hc, -⟩ := h
    cases hc
  | cons c rest ih =>
    obtain ⟨hne, hrest⟩ := List.forall_mem_cons.mp hplain
    rw [digitsFrom.eq_3 _ _ _ _ (by rintro d more rfl; exact absurd rfl hne)]
    cases hd : digitIn? 10 c with
    | none => rfl
    | some d =>
      obtain ⟨e, he, hnone⟩ := h
      obtain rfl | he := List.mem_cons.mp he
      · cases hd.symm.trans hnone
      · exact ih hrest ⟨e, he, hnone⟩ _

/-- The number that decimal digits of any script write. -/
def numeral (digits : List Char) : Nat :=
  digits.foldl (fun n c => 10 * n + (decimalValue? c).getD 0) 0

/-- The number is the one that ASCII digits of the same values denote. -/
theorem numeral_eq {f : Char → Char} {digits : List Char}
    (h : ∀ c ∈ digits, (f c).toNat - '0'.toNat = (decimalValue? c).getD 0) :
    numeral digits = Nat.ofDigitChars 10 (digits.map f) 0 := by
  have hfrom : ∀ n, digits.foldl (fun n c => 10 * n + (decimalValue? c).getD 0) n =
      Nat.ofDigitChars 10 (digits.map f) n := by
    induction digits with
    | nil => exact fun n => rfl
    | cons c rest ih =>
      intro n
      obtain ⟨hc, hrest⟩ := List.forall_mem_cons.mp h
      rw [List.map_cons, Nat.ofDigitChars_cons, hc, List.foldl_cons, ih hrest]
  exact hfrom 0

theorem plainText_of_isDigit {digits : List Char} (h : ∀ c ∈ digits, isDigit c = true) :
    plainText digits = digits.map plain :=
  plainText_eq_map fun c hc =>
    forall_plain (p := (isPlainBlank · = false)) (by decide) (by decide) (h c hc)

theorem splitSign_of_isDigit {digits : List Char} (h : ∀ c ∈ digits, isDigit c = true) :
    splitSign (digits.map plain) = (false, digits.map plain) := by
  cases digits with
  | nil => rfl
  | cons c rest =>
    obtain ⟨hminus, hplus⟩ := forall_plain (p := fun c => c ≠ '-' ∧ c ≠ '+') (by decide)
      (by decide) (h c List.mem_cons_self)
    rw [List.map_cons, splitSign]
    · intro more heq
      exact hminus (List.cons.inj heq).1
    · intro more heq
      exact hplus (List.cons.inj heq).1

theorem integer?_of_isDigit {digits : List Char} (h : ∀ c ∈ digits, isDigit c = true) :
    integer? 10 digits = (digits? 10 (digits.map plain)).map Int.ofNat := by
  simp only [integer?, plainText_of_isDigit h, splitSign_of_isDigit h, dropBaseMark_ten]
  cases digits? 10 (digits.map plain) <;> rfl

/-- A run of digits writes a number when each of them is decimal. -/
theorem digits?_map_plain {digits : List Char} (hne : digits ≠ [])
    (h : ∀ c ∈ digits, isDecimal c = true) :
    digits? 10 (digits.map plain) = some (numeral digits) := by
  have hcodes : ∀ d ≤ 9, (Char.ofNat (48 + d)).isDigit = true ∧
      (Char.ofNat (48 + d)).toNat - '0'.toNat = d := by decide
  have hdigit : ∀ c ∈ digits, (plain c).isDigit = true ∧
      (plain c).toNat - '0'.toNat = (decimalValue? c).getD 0 := by
    intro c hc
    obtain ⟨d, hd⟩ := Option.isSome_iff_exists.mp (h c hc)
    obtain ⟨-, -, -, hle⟩ := decimalValue?_eq_some hd
    rw [plain_of_decimalValue? hd, hd]
    exact hcodes d hle
  rw [digits?_ten (List.forall_mem_map.mpr fun c hc => (hdigit c hc).1) (by simpa using hne),
    numeral_eq fun c hc => (hdigit c hc).2]

theorem digits?_map_plain_eq_none {digits : List Char} (hdigits : ∀ c ∈ digits, isDigit c = true)
    (h : ∃ c ∈ digits, isDecimal c = false) : digits? 10 (digits.map plain) = none := by
  have hplain : ∀ c ∈ digits.map plain, c ≠ '_' := List.forall_mem_map.mpr fun c hc =>
    forall_plain (p := (· ≠ '_')) (by decide) (by decide) (hdigits c hc)
  have hmark : digitIn? 10 '?' = none := by decide
  have hnone : ∃ c ∈ digits.map plain, digitIn? 10 c = none := by
    obtain ⟨c, hc, hdecimal⟩ := h
    refine ⟨plain c, List.mem_map_of_mem hc, ?_⟩
    rw [plain_of_not_isDecimal (hdigits c hc) hdecimal, hmark]
  have hfrom := digitsFrom_eq_none hplain hnone 0
  -- A run begins without an underscore, so that its first digit counts like any other one.
  cases digits with
  | nil => rfl
  | cons c rest =>
    have hc := hplain _ List.mem_cons_self
    rw [List.map_cons] at hfrom ⊢
    rw [digitsFrom.eq_3 _ _ _ _ (by rintro d more heq; exact absurd heq hc)] at hfrom
    rw [digits?, ← hfrom]
    simp

end Literal

namespace Version

/-- The digits that the parts begin with, up to a part without any. -/
def runs (pieces : List (List Char)) : List (List Char) :=
  (pieces.map (·.takeWhile isDigit)).takeWhile (!·.isEmpty)

/-- The runs of digits that write the numbers of a version. -/
def numerals (text : String) : List (List Char) := runs (splitAt '.' (trim text.toList))

theorem runs_cons_of_nil {piece : List Char} (h : piece.takeWhile isDigit = [])
    (rest : List (List Char)) : runs (piece :: rest) = [] := by
  rw [runs, List.map_cons, h]
  rfl

theorem runs_cons_of_ne {piece : List Char} (h : piece.takeWhile isDigit ≠ [])
    (rest : List (List Char)) : runs (piece :: rest) = piece.takeWhile isDigit :: runs rest := by
  rw [runs, List.map_cons, List.takeWhile_cons, if_pos (by simpa using h), runs]

/-- Only decimal digits make a number; any other digit is a fault. -/
theorem partValue_ok_iff {digits : List Char} (hne : digits ≠ [])
    (h : ∀ c ∈ digits, isDigit c = true) {n : Nat} :
    partValue digits = .ok n ↔
      (∀ c ∈ digits, isDecimal c = true) ∧ n = Literal.numeral digits := by
  rw [partValue, Literal.integer?_of_isDigit h]
  by_cases hall : ∀ c ∈ digits, isDecimal c = true
  · rw [Literal.digits?_map_plain hne hall]
    simp only [Option.map_some, Except.ok.injEq, Int.ofNat_eq_natCast, Int.toNat_natCast]
    exact ⟨fun heq => ⟨hall, heq.symm⟩, fun heq => heq.2.symm⟩
  · have hsome : ∃ c ∈ digits, isDecimal c = false := by simpa using hall
    rw [Literal.digits?_map_plain_eq_none h hsome]
    exact ⟨nofun, fun heq => absurd heq.1 hall⟩

/-- The numbers are read one after the other, and each of them has to be one. -/
theorem partsOf_ok_iff {pieces : List (List Char)} {ns : List Nat} :
    partsOf pieces = .ok ns ↔
      (∀ digits ∈ runs pieces, ∀ c ∈ digits, isDecimal c = true) ∧
        ns = (runs pieces).map Literal.numeral := by
  induction pieces generalizing ns with
  | nil =>
    rw [partsOf, Except.ok.injEq]
    exact ⟨fun h => ⟨List.forall_mem_nil _, h.symm⟩, fun h => h.2.symm⟩
  | cons piece rest ih =>
    by_cases hnil : piece.takeWhile isDigit = []
    · have hparts : partsOf (piece :: rest) = .ok [] := by
        rw [partsOf, if_pos (List.isEmpty_iff.mpr hnil)]
      rw [hparts, runs_cons_of_nil hnil, Except.ok.injEq]
      exact ⟨fun h => ⟨List.forall_mem_nil _, h.symm⟩, fun h => h.2.symm⟩
    have hpart := fun {n} => partValue_ok_iff (n := n) hnil (List.all_eq_true.mp List.all_takeWhile)
    have hparts : partsOf (piece :: rest) = (do
        let n ← partValue (piece.takeWhile isDigit)
        return n :: (← partsOf rest)) := by
      rw [partsOf, if_neg (by simpa using hnil)]
    rw [hparts, runs_cons_of_ne hnil, List.forall_mem_cons, List.map_cons]
    constructor
    · intro h
      cases hn : partValue (piece.takeWhile isDigit) with
      | error f => rw [hn] at h; cases h
      | ok n =>
        cases hmore : partsOf rest with
        | error f => rw [hn, hmore] at h; cases h
        | ok more =>
          rw [hn, hmore] at h
          cases h
          obtain ⟨hdecimal, rfl⟩ := hpart.mp hn
          obtain ⟨hrest, rfl⟩ := ih.mp hmore
          exact ⟨⟨hdecimal, hrest⟩, rfl⟩
    · rintro ⟨⟨hdecimal, hrest⟩, rfl⟩
      rw [hpart.mpr ⟨hdecimal, rfl⟩, ih.mpr ⟨hrest, rfl⟩]
      rfl

theorem parse_ok_iff {text : String} {ns : List Nat} :
    parse text = .ok ns ↔
      (∀ digits ∈ numerals text, ∀ c ∈ digits, isDecimal c = true) ∧
        ns = (numerals text).map Literal.numeral :=
  partsOf_ok_iff

/-- Versions are ordered as sequences of numbers. -/
theorem order_eq_lt_iff {ms ns : List Nat} : order ms ns = .lt ↔ ms < ns := by
  induction ms generalizing ns with
  | nil =>
    cases ns with
    | nil => exact ⟨nofun, fun h => absurd h (List.lt_irrefl _)⟩
    | cons n ns => exact ⟨fun _ => List.nil_lt_cons n ns, fun _ => rfl⟩
  | cons m ms ih =>
    cases ns with
    | nil => exact ⟨nofun, fun h => absurd h (List.not_lt_nil _)⟩
    | cons n ns =>
      rw [order, List.cons_lt_cons_iff, Ordering.then_eq_lt, Nat.compare_eq_lt,
        Nat.compare_eq_eq, ih]

section Written

/-- The numbers between dots. -/
def written (ns : List Nat) : String := ".".intercalate (ns.map toString)

/-- What may come to stand where a number is looked for behind the numbers that were written: the
start of a text without numbers, and the text behind the first dot of what follows the last one. -/
def continuation (ns : List Nat) (suffix : List Char) : List Char :=
  if ns.isEmpty then trimStart suffix else (suffix.dropWhile (· != '.')).drop 1

theorem toList_written_cons (n m : Nat) (ns : List Nat) :
    (written (n :: m :: ns)).toList = Nat.toDigits 10 n ++ '.' :: (written (m :: ns)).toList := by
  simp [written, Nat.toList_repr]

theorem toList_written_singleton (n : Nat) : (written [n]).toList = Nat.toDigits 10 n := by
  simp [written, Nat.toList_repr]

theorem isDigit_of_mem_toDigits {n : Nat} {c : Char} (hc : c ∈ Nat.toDigits 10 n) :
    isDigit c = true ∧ isDecimal c = true ∧ (decimalValue? c).getD 0 = c.toNat - '0'.toNat :=
  Literal.forall_isDigit (p := fun c => isDigit c = true ∧ isDecimal c = true ∧
    (decimalValue? c).getD 0 = c.toNat - '0'.toNat) (by decide)
    (Nat.isDigit_of_mem_toDigits (by decide) (by decide) hc)

/-- A number is written with the digits that denote it. -/
theorem numeral_toDigits (n : Nat) : Literal.numeral (Nat.toDigits 10 n) = n := by
  rw [Literal.numeral_eq (f := id) fun c hc => (isDigit_of_mem_toDigits hc).2.2.symm, List.map_id,
    Nat.ofDigitChars_ten_toDigits]

/-- A part that begins with a number. -/
theorem runs_toDigits (n : Nat) {rest : List Char} (h : ∀ c ∈ rest.head?, isDigit c = false)
    (pieces : List (List Char)) :
    runs ((Nat.toDigits 10 n ++ rest) :: pieces) = Nat.toDigits 10 n :: runs pieces := by
  have htake : (Nat.toDigits 10 n ++ rest).takeWhile isDigit = Nat.toDigits 10 n :=
    Token.takeWhile_append_of_all (fun _ hc => (isDigit_of_mem_toDigits hc).1) h
  rw [runs_cons_of_ne (by rw [htake]; exact Nat.toDigits_ne_nil), htake]

theorem takeWhile_eq_nil_iff {cs : List Char} :
    cs.takeWhile isDigit = [] ↔ ∀ c ∈ cs.head?, isDigit c = false := by
  cases cs with
  | nil => simp
  | cons c cs => cases h : isDigit c <;> simp [h]

/-- No number is found where no digit stands. -/
theorem runs_eq_nil_iff {cs : List Char} :
    runs (splitAt '.' cs) = [] ↔ ∀ c ∈ cs.head?, isDigit c = false := by
  have hfirst : ∀ {piece : List Char} (rest : List (List Char)),
      runs (piece :: rest) = [] ↔ piece.takeWhile isDigit = [] := by
    intro piece rest
    refine ⟨fun h => ?_, fun h => runs_cons_of_nil h rest⟩
    by_contra hne
    rw [runs_cons_of_ne hne] at h
    cases h
  by_cases hdot : '.' ∈ cs
  · obtain ⟨piece, rest, rfl, hpiece⟩ := List.eq_append_cons_of_mem hdot
    rw [Buffer.splitAt_append hpiece, hfirst, takeWhile_eq_nil_iff]
    cases piece with
    | nil => simp [not_isDigit_dot]
    | cons c piece => rfl
  · rw [Buffer.splitAt_of_not_mem hdot, hfirst, takeWhile_eq_nil_iff]

/-- Blanks at the end write no number. -/
theorem runs_append_blanks (cs : List Char) {blanks : List Char}
    (hb : ∀ c ∈ blanks, isBlank c = true) :
    runs (splitAt '.' (cs ++ blanks)) = runs (splitAt '.' cs) := by
  have hdigits : ∀ piece : List Char,
      (piece ++ blanks).takeWhile isDigit = piece.takeWhile isDigit := by
    intro piece
    have hnone : blanks.takeWhile isDigit = [] := by
      refine takeWhile_eq_nil_iff.mpr fun c hc => ?_
      rw [Bool.eq_false_iff]
      intro hdigit
      exact absurd (isBlank_of_isDigit hdigit)
        (by rw [hb c (List.mem_of_mem_head? hc)]; decide)
    rw [List.takeWhile_append, hnone, List.append_nil]
    split
    · next hlength => rw [(List.takeWhile_sublist _).eq_of_length hlength]
    · rfl
  have hdotless : '.' ∉ blanks := fun hdot => absurd (hb '.' hdot) (by decide)
  induction cs using Buffer.separator_induction '.' with
  | last piece hpiece =>
    have hboth : '.' ∉ piece ++ blanks := fun h => (List.mem_append.mp h).elim hpiece hdotless
    rw [Buffer.splitAt_of_not_mem hboth, Buffer.splitAt_of_not_mem hpiece, runs, runs,
      List.map_singleton, List.map_singleton, hdigits]
  | first piece rest hpiece ih =>
    rw [List.append_assoc, List.cons_append, Buffer.splitAt_append hpiece,
      Buffer.splitAt_append hpiece]
    by_cases hnil : piece.takeWhile isDigit = []
    · rw [runs_cons_of_nil hnil, runs_cons_of_nil hnil]
    · rw [runs_cons_of_ne hnil, runs_cons_of_ne hnil, ih]

/-- The text behind written numbers: the numbers come first, and what the text goes on with. -/
theorem runs_written {ns : List Nat} (hne : ns ≠ []) {suffix : List Char}
    (hs : ∀ c ∈ suffix.head?, isDigit c = false ∧ c ≠ '.') :
    runs (splitAt '.' ((written ns).toList ++ suffix)) =
      ns.map (Nat.toDigits 10) ++ runs (splitAt '.' (continuation ns suffix)) := by
  have hdots : ∀ n, '.' ∉ Nat.toDigits 10 n := fun n hdot =>
    absurd (isDigit_of_mem_toDigits hdot).1 (by decide)
  induction ns with
  | nil => exact absurd rfl hne
  | cons n ns ih =>
    cases ns with
    | nil =>
      rw [toList_written_singleton, continuation, if_neg (by simp), List.map_singleton,
        List.singleton_append]
      by_cases hdot : '.' ∈ suffix
      · obtain ⟨word, after, rfl, hword⟩ := List.eq_append_cons_of_mem hdot
        have hdrop : ((word ++ '.' :: after).dropWhile (· != '.')).drop 1 = after := by
          rw [Token.dropWhile_append_of_all (by simpa using fun c hc => ne_of_mem_of_not_mem hc hword)
            (by simp)]
          rfl
        have hhead : ∀ c ∈ word.head?, isDigit c = false := by
          intro c hc
          cases word with
          | nil => cases hc
          | cons d word => exact (hs c hc).1
        rw [← List.append_assoc, Buffer.splitAt_append (by simp [hdots, hword]),
          runs_toDigits n hhead, hdrop]
      · have hdrop : suffix.dropWhile (· != '.') = [] := by
          rw [List.dropWhile_eq_nil_iff]
          exact fun c hc => by simpa using ne_of_mem_of_not_mem hc hdot
        rw [Buffer.splitAt_of_not_mem (by simp [hdots, hdot]),
          runs_toDigits n fun c hc => (hs c hc).1, hdrop]
        rfl
    | cons m ns =>
      have hmore := ih (List.cons_ne_nil m ns)
      have hnone : ∀ c ∈ ([] : List Char).head?, isDigit c = false := by simp
      have hfirst := runs_toDigits n hnone (splitAt '.' ((written (m :: ns)).toList ++ suffix))
      rw [List.append_nil] at hfirst
      rw [toList_written_cons, List.append_assoc, List.cons_append,
        Buffer.splitAt_append (hdots n), hfirst, hmore]
      rfl

/-- The numbers of a text are those that were written in front of it and those of its continuation.
-/
theorem numerals_written (ns : List Nat) {suffix : String}
    (hs : ∀ c ∈ suffix.toList.head?, isDigit c = false ∧ c ≠ '.') :
    numerals (written ns ++ suffix) =
      ns.map (Nat.toDigits 10) ++ runs (splitAt '.' (continuation ns suffix.toList)) := by
  have htrim : ∀ cs, runs (splitAt '.' (dropEnd isBlank cs)) = runs (splitAt '.' cs) := by
    intro cs
    obtain ⟨blanks, hcs, hb⟩ := Buffer.exists_dropEnd cs
    conv => rhs; rw [hcs]
    rw [runs_append_blanks _ hb]
  rw [numerals, trim, htrim, String.toList_append]
  cases ns with
  | nil => rfl
  | cons n ns =>
    have hstart : trimStart ((written (n :: ns)).toList ++ suffix.toList) =
        (written (n :: ns)).toList ++ suffix.toList := by
      obtain ⟨c, cs, hc, hdigit⟩ : ∃ c cs, (written (n :: ns)).toList = c :: cs ∧
          isDigit c = true := by
        obtain ⟨c, cs, hcs⟩ := List.exists_cons_of_ne_nil (Nat.toDigits_ne_nil (b := 10) (n := n))
        have hdigit : isDigit c = true :=
          (isDigit_of_mem_toDigits (n := n) (by rw [hcs]; exact List.mem_cons_self)).1
        cases ns with
        | nil => exact ⟨c, cs, by rw [toList_written_singleton, hcs], hdigit⟩
        | cons m ns => exact ⟨c, _, by rw [toList_written_cons, hcs]; rfl, hdigit⟩
      rw [hc, List.cons_append, trimStart, List.dropWhile_cons_of_neg]
      rw [isBlank_of_isDigit hdigit]
      decide
    rw [hstart, runs_written (List.cons_ne_nil n ns) hs]

/-- Numbers between dots with a suffix are parsed as these numbers exactly when the text does not
go on with a digit. -/
theorem parse_written_iff (ns : List Nat) {suffix : String}
    (hs : ∀ c ∈ suffix.toList.head?, isDigit c = false ∧ c ≠ '.') :
    parse (written ns ++ suffix) = .ok ns ↔
      ∀ c ∈ (continuation ns suffix.toList).head?, isDigit c = false := by
  rw [parse_ok_iff, numerals_written ns hs, ← runs_eq_nil_iff]
  have hnumbers : (ns.map (Nat.toDigits 10)).map Literal.numeral = ns := by
    rw [List.map_map]
    exact List.map_id'' numeral_toDigits ns
  constructor
  · rintro ⟨-, heq⟩
    have hlength := congrArg List.length heq
    simp only [List.length_map, List.length_append] at hlength
    exact List.length_eq_zero_iff.mp (by omega)
  · intro hnil
    rw [hnil, List.append_nil, hnumbers]
    refine ⟨List.forall_mem_map.mpr fun n _ c hc => (isDigit_of_mem_toDigits hc).2.1, rfl⟩

end Written

end Version

end LiveScheme
