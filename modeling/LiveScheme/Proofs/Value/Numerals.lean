import LiveScheme.Primitive.Call
import LiveScheme.Proofs.Machine.Assignment
import LiveScheme.Proofs.Reading.Fault
import LiveScheme.Proofs.Reading.ReadBack
import LiveScheme.Proofs.Version.Numerals
import Mathlib.Data.List.Permutation

/-!
# Integers in programs and in strings

A numeral is recognised in two places: by the reader, where it is a word of a program, and by
`string->number`, where it is the text of a string. Decimal digits of any script, behind a sign or
not, are the same integer for both. Only the reader knows numerals that announce a base, and for it
a numeral with underscores between its digits is no integer; every other word is an integer for both
or for neither. What `number->string` writes is the same integer again.
-/

namespace LiveScheme

open Text

namespace Literal

section Plain

theorem isBlank_of_isPlainBlank {c : Char} (h : isPlainBlank c = true) : isBlank c = true := by
  simp only [isPlainBlank, Bool.or_eq_true, beq_iff_eq, Bool.and_eq_true, decide_eq_true_eq,
    Char.le_def, UInt32.le_iff_toNat_le] at h
  rw [isBlank, inRanges_iff]
  obtain rfl | ⟨hlow, hhigh⟩ := h
  · exact ⟨(0x1C, 0x20), by decide, by decide⟩
  · exact ⟨(0x9, 0xD), by decide, hlow, hhigh⟩

/-- A character of a literal stays what it is, or it is a foreign one and becomes a blank, a digit
or the mark that fits no literal. -/
theorem plain_cases (c : Char) :
    plain c = c ∨ isBlank c = true ∨ plain c = '?' ∨ (plain c).isDigit = true := by
  have hcodes : ∀ d ≤ 9, (Char.ofNat (48 + d)).isDigit = true := by decide
  by_cases hlow : c.toNat < 128
  · exact .inl (if_pos hlow)
  by_cases hblank : isBlank c = true
  · exact .inr (.inl hblank)
  cases hd : decimalValue? c with
  | some d =>
    obtain ⟨-, -, -, hle⟩ := decimalValue?_eq_some hd
    rw [plain_of_decimalValue? hd]
    exact .inr (.inr (.inr (hcodes d hle)))
  | none =>
    refine .inr (.inr (.inl ?_))
    rw [plain, if_neg hlow, if_neg hblank, hd]

theorem isPlainBlank_plain {c : Char} (hc : isBlank c = false) :
    isPlainBlank (plain c) = false := by
  obtain hplain | hblank | hmark | hdigit := plain_cases c
  · rw [hplain]
    rw [Bool.eq_false_iff] at hc ⊢
    exact fun h => hc (isBlank_of_isPlainBlank h)
  · rw [hc] at hblank
    cases hblank
  · rw [hmark]
    decide
  · exact forall_isDigit (p := (isPlainBlank · = false)) (by decide) hdigit

/-- Signs and underscores stand for themselves only. -/
theorem plain_eq_iff {mark : Char} (hmark : mark ∈ ['-', '+', '_']) {c : Char}
    (hc : isBlank c = false) : plain c = mark ↔ c = mark := by
  have hmarks : ∀ d ∈ ['-', '+', '_'], d ≠ '?' ∧ d.isDigit = false ∧ plain d = d := by decide
  obtain ⟨hne, hdigit, hself⟩ := hmarks mark hmark
  constructor
  · intro heq
    obtain hplain | hblank | hforeign | hforeign := plain_cases c
    · exact hplain.symm.trans heq
    · rw [hc] at hblank
      cases hblank
    · exact absurd (heq.symm.trans hforeign) hne
    · rw [heq, hdigit] at hforeign
      cases hforeign
  · rintro rfl
    exact hself

theorem splitSign_map_plain {cs : List Char} (h : ∀ c ∈ cs, isBlank c = false) :
    splitSign (cs.map plain) = ((splitSign cs).1, (splitSign cs).2.map plain) := by
  cases cs with
  | nil => rfl
  | cons c rest =>
    have hc := h c List.mem_cons_self
    have hminus : plain c = '-' ↔ c = '-' := plain_eq_iff (by decide) hc
    have hplus : plain c = '+' ↔ c = '+' := plain_eq_iff (by decide) hc
    rw [List.map_cons]
    by_cases hm : c = '-'
    · rw [hminus.mpr hm, hm]
      rfl
    by_cases hp : c = '+'
    · rw [hplus.mpr hp, hp]
      rfl
    have hkeep : ∀ {d : Char} {ds : List Char}, d ≠ '-' → d ≠ '+' →
        splitSign (d :: ds) = (false, d :: ds) := by
      intro d ds hdm hdp
      rw [splitSign] <;> simp [hdm, hdp]
    rw [hkeep hm hp, hkeep (mt hminus.mp hm) (mt hplus.mp hp), List.map_cons]

theorem isDigit_of_digitIn? {c : Char} {d : Nat} (h : digitIn? 10 c = some d) :
    c.isDigit = true := by
  rw [digitIn?, Option.filter_eq_some_iff, decide_eq_true_eq] at h
  obtain ⟨hvalue, hlt⟩ := h
  simp only [baseDigitValue?, Bool.and_eq_true, decide_eq_true_eq, Char.le_def,
    UInt32.le_iff_toNat_le] at hvalue
  split at hvalue
  · next hrange =>
    simpa [Char.isDigit, UInt32.le_iff_toNat_le] using hrange
  split at hvalue
  · next hrange =>
    have hlow : 97 ≤ c.toNat := hrange.1
    cases hvalue
    omega
  split at hvalue
  · next hrange =>
    have hlow : 65 ≤ c.toNat := hrange.1
    cases hvalue
    omega
  · cases hvalue

/-- A digit of a decimal literal has its value in its script. -/
theorem digitIn?_plain (c : Char) : digitIn? 10 (plain c) = decimalValue? c := by
  have hcodes : ∀ d ≤ 9, digitIn? 10 (Char.ofNat (48 + d)) = some d := by decide
  cases hd : decimalValue? c with
  | some d =>
    obtain ⟨-, -, -, hle⟩ := decimalValue?_eq_some hd
    rw [plain_of_decimalValue? hd, hcodes d hle]
  | none =>
    rw [plain]
    split
    · by_contra hne
      obtain ⟨d, hdigit⟩ := Option.ne_none_iff_exists'.mp hne
      exact forall_isDigit (p := (decimalValue? · ≠ none)) (by decide)
        (isDigit_of_digitIn? hdigit) hd
    split
    · decide
    · rw [hd]
      decide

end Plain

section Grouped

/-- Decimal digits of any script with single underscores between them. -/
def isGrouped (cs : List Char) : Bool :=
  (splitAt '_' cs).all fun part => !part.isEmpty && part.all isDecimal

/-- The integer that decimal digits write, behind a sign or not. -/
def decimalInt? (cs : List Char) : Option Int :=
  let (negative, body) := splitSign cs
  if isGrouped body then
    let n := numeral (body.filter (· != '_'))
    some (if negative then -(n : Int) else n)
  else none

/-- The number that a run of digits goes on to from another one. -/
def numeralFrom (value : Nat) (digits : List Char) : Nat :=
  digits.foldl (fun n c => 10 * n + (decimalValue? c).getD 0) value

/-- The value of a run of digits that begins with one and goes on from a value. -/
def digitsAfter (value : Nat) : List Char → Option Nat
  | [] => none
  | c :: rest => (digitIn? 10 c).bind fun d => digitsFrom 10 (value * 10 + d) rest

theorem digits?_eq_digitsAfter (cs : List Char) : digits? 10 cs = digitsAfter 0 cs := by
  cases cs with
  | nil => rfl
  | cons c rest => simp [digits?, digitsAfter]

theorem digitsFrom_cons {c : Char} (hc : c ≠ '_') (value : Nat) (rest : List Char) :
    digitsFrom 10 value (c :: rest) = digitsAfter value (c :: rest) := by
  rw [digitsFrom.eq_3 _ _ _ _ (by rintro d more rfl; exact absurd rfl hc), digitsAfter]

/-- Behind an underscore a new run has to begin. -/
theorem digitsFrom_underscore (value : Nat) (rest : List Char) :
    digitsFrom 10 value ('_' :: rest) = digitsAfter value rest := by
  cases rest with
  | nil => rfl
  | cons c rest => rw [digitsFrom, digitsAfter]

theorem digitsFrom_piece {piece : List Char} (hblank : ∀ c ∈ piece, isBlank c = false)
    (hpiece : '_' ∉ piece) (value : Nat) (rest : List Char) :
    digitsFrom 10 value (piece.map plain ++ rest) =
      if piece.all isDecimal then digitsFrom 10 (numeralFrom value piece) rest else none := by
  induction piece generalizing value with
  | nil => rfl
  | cons c piece ih =>
    obtain ⟨hc, hblank⟩ := List.forall_mem_cons.mp hblank
    have hne : plain c ≠ '_' := fun heq =>
      hpiece (List.mem_cons.mpr (.inl ((plain_eq_iff (by decide) hc).mp heq).symm))
    rw [List.map_cons, List.cons_append, digitsFrom_cons hne, digitsAfter, digitIn?_plain,
      List.all_cons, isDecimal]
    cases hd : decimalValue? c with
    | none => rfl
    | some d =>
      rw [Option.bind_some, ih hblank fun h => hpiece (List.mem_cons_of_mem c h), numeralFrom,
        numeralFrom, List.foldl_cons, hd, Option.getD_some, Nat.mul_comm]
      rfl

theorem digitsAfter_piece {piece : List Char} (hblank : ∀ c ∈ piece, isBlank c = false)
    (hpiece : '_' ∉ piece) (value : Nat) {rest : List Char} (hrest : ∀ c ∈ rest.head?, c = '_') :
    digitsAfter value (piece.map plain ++ rest) =
      if !piece.isEmpty && piece.all isDecimal then
        digitsFrom 10 (numeralFrom value piece) rest
      else none := by
  cases piece with
  | nil =>
    cases rest with
    | nil => rfl
    | cons c rest =>
      obtain rfl := hrest c rfl
      rfl
  | cons c piece =>
    have hne : plain c ≠ '_' := fun heq => hpiece (List.mem_cons.mpr
      (.inl ((plain_eq_iff (by decide) (hblank c List.mem_cons_self)).mp heq).symm))
    have hrun := digitsFrom_piece hblank hpiece value rest
    rw [List.map_cons, List.cons_append, digitsFrom_cons hne] at hrun
    rw [List.map_cons, List.cons_append, hrun]
    rfl

theorem digitsAfter_map_plain {cs : List Char} (h : ∀ c ∈ cs, isBlank c = false) (value : Nat) :
    digitsAfter value (cs.map plain) =
      if isGrouped cs then some (numeralFrom value (cs.filter (· != '_'))) else none := by
  have hkeep : ∀ {piece : List Char}, '_' ∉ piece → piece.filter (· != '_') = piece := by
    intro piece hpiece
    exact List.filter_eq_self.mpr fun c hc => by simpa using ne_of_mem_of_not_mem hc hpiece
  -- over the runs between underscores; the value so far is carried from one run into the next
  induction cs using Buffer.separator_induction '_' generalizing value with
  | last piece hpiece =>
    have hrun := @digitsAfter_piece _ h hpiece value [] (by simp)
    rw [List.append_nil] at hrun
    rw [hrun, isGrouped, Buffer.splitAt_of_not_mem hpiece, hkeep hpiece, List.all_cons,
      List.all_nil, Bool.and_true]
    rfl
  | first piece rest hpiece ih =>
    obtain ⟨hfirst, hlater⟩ := List.forall_mem_append.mp h
    have hrest := (List.forall_mem_cons.mp hlater).2
    have hmark : plain '_' = '_' := by decide
    have hfold : numeralFrom (numeralFrom value piece) (rest.filter (· != '_')) =
        numeralFrom value ((piece ++ '_' :: rest).filter (· != '_')) := by
      rw [List.filter_append, hkeep hpiece, List.filter_cons_of_neg (by decide), numeralFrom,
        numeralFrom, numeralFrom, List.foldl_append]
    rw [List.map_append, List.map_cons, hmark, digitsAfter_piece hfirst hpiece value (by simp),
      digitsFrom_underscore, ih hrest, hfold, isGrouped, isGrouped, Buffer.splitAt_append hpiece,
      List.all_cons]
    cases !piece.isEmpty && piece.all isDecimal <;> rfl

/-- Decimal literals without blanks are decimal digits, with or without underscores. -/
theorem integer?_ten {cs : List Char} (h : ∀ c ∈ cs, isBlank c = false) :
    integer? 10 cs = decimalInt? cs := by
  have hbody : ∀ c ∈ (splitSign cs).2, isBlank c = false := by
    unfold splitSign
    split
    · exact fun c hc => h c (List.mem_cons_of_mem _ hc)
    · exact fun c hc => h c (List.mem_cons_of_mem _ hc)
    · exact h
  simp only [integer?, decimalInt?, plainText_eq_map fun c hc => isPlainBlank_plain (h c hc),
    splitSign_map_plain h, dropBaseMark_ten, digits?_eq_digitsAfter, digitsAfter_map_plain hbody]
  cases isGrouped (splitSign cs).2 <;> rfl

end Grouped

end Literal

namespace Atom

/-- The integer that a word writes in the base that it announces. -/
def baseInt? (cs : List Char) : Option Int :=
  (announcedBase? cs).bind fun base => Literal.integer? base (cs.drop 2)

theorem head_of_announcedBase? {cs : List Char} {base : Nat} (h : announcedBase? cs = some base) :
    ∃ rest, cs = '#' :: rest := by
  unfold announcedBase? at h
  split at h
  · exact ⟨_, rfl⟩
  · exact ⟨_, rfl⟩
  · exact ⟨_, rfl⟩
  · exact ⟨_, rfl⟩
  · cases h

/-- What announces a base is no decimal literal. -/
theorem decimalInt?_of_baseInt? {cs : List Char} (h : baseInt? cs ≠ none) :
    Literal.decimalInt? cs = none := by
  cases hbase : announcedBase? cs with
  | none => exact absurd (by rw [baseInt?, hbase]; rfl) h
  | some base =>
    obtain ⟨rest, rfl⟩ := head_of_announcedBase? hbase
    have hmark : '#' ≠ '_' := by decide
    obtain ⟨part, parts, -, hparts⟩ := Buffer.splitAt_cons_of_ne hmark rest
    have hsign : Literal.splitSign ('#' :: rest) = (false, '#' :: rest) := rfl
    have hgroup : Literal.isGrouped ('#' :: rest) = false := by
      rw [Literal.isGrouped, hparts, List.all_cons, List.all_cons,
        show isDecimal '#' = false by decide]
      simp
    simp only [Literal.decimalInt?, hsign, hgroup]
    rfl

theorem isInteger_eq (cs : List Char) : isInteger cs =
    (!(Literal.splitSign cs).2.isEmpty && (Literal.splitSign cs).2.all isDecimal) := by
  unfold Literal.splitSign
  split
  · rw [isInteger, List.all_cons, show isDecimal '-' = false by decide]
    rfl
  · rw [isInteger, List.all_cons, show isDecimal '+' = false by decide]
    rfl
  · next hminus hplus =>
    cases cs with
    | nil => rfl
    | cons c rest =>
      have hsign : isSign c = false := by
        rw [isSign, Bool.or_eq_false_iff, beq_eq_false_iff_ne, beq_eq_false_iff_ne]
        exact ⟨fun h => hplus rest (by rw [h]), fun h => hminus rest (by rw [h])⟩
      rw [isInteger, hsign, Bool.false_and, Bool.false_and, Bool.or_false]
      rfl

/-- For the reader decimal digits are an integer when no underscore stands between them. -/
theorem isInteger_iff (cs : List Char) :
    isInteger cs = true ↔ Literal.decimalInt? cs ≠ none ∧ '_' ∉ cs := by
  have hsome : Literal.decimalInt? cs ≠ none ↔
      Literal.isGrouped (Literal.splitSign cs).2 = true := by
    simp [Literal.decimalInt?]
  have hmem : '_' ∈ cs ↔ '_' ∈ (Literal.splitSign cs).2 := by
    unfold Literal.splitSign
    split <;> simp
  rw [isInteger_eq, hsome, hmem]
  generalize (Literal.splitSign cs).2 = body
  by_cases h : '_' ∈ body
  · have hdigit : body.all isDecimal = false :=
      List.all_eq_false.mpr ⟨'_', h, by decide⟩
    simp [h, hdigit]
  · simp [h, Literal.isGrouped, Buffer.splitAt_of_not_mem h]

/-- The words that are integers for the reader. -/
theorem word_eq_int_iff {cs : List Char} (h : ∀ c ∈ cs, isBlank c = false) {n : Int} :
    word cs = .ok (.int n) ↔
      Literal.decimalInt? cs = some n ∧ '_' ∉ cs ∨ baseInt? cs = some n := by
  have hbase : ∀ {k}, Literal.decimalInt? cs = some k → baseInt? cs ≠ some n := by
    intro k hk hn
    rw [decimalInt?_of_baseInt? (by rw [hn]; exact Option.some_ne_none n)] at hk
    cases hk
  rw [word]
  by_cases hint : isInteger cs = true
  · obtain ⟨hdecimal, hmark⟩ := (isInteger_iff cs).mp hint
    obtain ⟨k, hk⟩ := Option.ne_none_iff_exists'.mp hdecimal
    rw [if_pos hint, Literal.integer?_ten h, hk, Option.getD_some]
    simp [hmark, hbase hk]
  · have hdecimal : ¬(Literal.decimalInt? cs = some n ∧ '_' ∉ cs) := fun hn =>
      hint ((isInteger_iff cs).mpr ⟨by rw [hn.1]; exact Option.some_ne_none n, hn.2⟩)
    rw [if_neg hint, baseInt?]
    cases announcedBase? cs with
    | some base =>
      rw [Option.bind_some]
      dsimp only
      cases Literal.integer? base (cs.drop 2) with
      | some k => simp [hdecimal]
      | none => simp [hdecimal]
    | none =>
      dsimp only
      split <;> simp [hdecimal]

end Atom

namespace Datum

/-- The text is scanned as one word. -/
def IsOneWord (text : String) : Prop :=
  Lexed.ofText text.toList = ⟨[⟨.word, text.toList⟩], none⟩

namespace IsOneWord

variable {text : String} (h : IsOneWord text)

include h

theorem isBlank_eq_false : ∀ c ∈ text.toList, isBlank c = false := by
  have hmem : (⟨.word, text.toList⟩ : Token) ∈ (Lexed.ofText text.toList).tokens := by
    rw [h]
    exact List.mem_singleton_self _
  obtain hword | ⟨hbare, -⟩ := Lexed.isWord_of_mem_tokens hmem rfl
  · exact fun c hc => Token.isBlank_of_isWordChar (hword.chars c hc)
  · dsimp only at hbare
    rw [hbare]
    decide

/-- A word is read as what it denotes, unless it is a dot. -/
theorem readAll (hdot : text.toList ≠ ['.']) :
    Datum.readAll text = (Atom.word text.toList).map fun d => [d] := by
  have hstep : Reading.start.run (Lexed.ofText text.toList).tokens =
      (Atom.word text.toList).map fun d => ⟨[d], []⟩ := by
    rw [h, Reading.run, Reading.step, Reading.start, Reading.take]
    simp only [if_neg hdot]
    cases Atom.word text.toList <;> rfl
  cases hd : Atom.word text.toList with
  | error e =>
    rw [hd] at hstep
    exact readAll_of_run_error hstep
  | ok d =>
    rw [hd] at hstep
    rw [readAll_of_run hstep, h]
    rfl

/-- A word is read as an integer when it is decimal digits without underscores or a numeral that
announces its base. -/
theorem readAll_eq_int_iff {n : Int} : Datum.readAll text = .ok [.int n] ↔
    Literal.decimalInt? text.toList = some n ∧ '_' ∉ text.toList ∨
      Atom.baseInt? text.toList = some n := by
  rw [← Atom.word_eq_int_iff h.isBlank_eq_false]
  by_cases hdot : text.toList = ['.']
  · have hread : Datum.readAll text = .error .unexpectedDot := by
      refine readAll_of_run_error ?_
      rw [h, hdot]
      rfl
    have hword : Atom.word ['.'] = .ok (.sym ".") := by rfl
    rw [hread, hdot, hword]
    simp
  · rw [h.readAll hdot]
    cases Atom.word text.toList with
    | error e => exact ⟨nofun, nofun⟩
    | ok d => rw [Except.map, Except.ok.injEq, Except.ok.injEq, List.singleton_inj]

end IsOneWord

end Datum

theorem Run.outcome_bind_of_ok {α β : Type} {x : Run α} {f : α → Run β} {m m' : Machine} {a : α}
    (h : x m = .ok a m') : (x >>= f).outcome m = (f a).outcome m' := by
  rw [outcome, outcome, bind_of_ok h]

namespace Builtin

variable (g : Engine) (s : Scope) (m : Machine)

/-- A string is an integer when it is a decimal literal. -/
theorem outcome_stringToNumber_iff (tag : Identity) (text : String) {n : Int} :
    (Builtin.call g s [.str tag text] .stringToNumber).outcome m = .ok (.int n) ↔
      Literal.integer? 10 text.toList = some n := by
  have hcall : Builtin.call g s [.str tag text] .stringToNumber =
      Primitive.stringToNumber [.str tag text] := rfl
  have hcount : Primitive.checkCount "string->number" 1 (some 1) [.str tag text] m = .ok () m := rfl
  have htext : Primitive.textArg "string->number" (.str tag text) m = .ok text m := rfl
  have hvalue : ∀ v, (pure v : Run Value).outcome m = .ok v := fun v => rfl
  have hreal : ∀ x, (Run.ofNumber (.real x)).outcome m = .ok (.real (.fresh m.nextTag) x) :=
    fun x => rfl
  rw [hcall, Primitive.stringToNumber, Run.outcome_bind_of_ok hcount, List.headD_cons,
    Run.outcome_bind_of_ok htext]
  dsimp only
  cases Literal.integer? 10 text.toList with
  | some k => simp [hvalue]
  | none =>
    dsimp only
    cases Literal.real? text.toList with
    | some x => simp [hreal]
    | none => simp [hvalue]

theorem outcome_stringToNumber_numberToString (n : Int) :
    (do
      let v ← Builtin.call g s [.int n] .numberToString
      Builtin.call g s [v] .stringToNumber).outcome m = .ok (.int n) := by
  have hwrite : Builtin.call g s [.int n] .numberToString m =
      .ok (.str (.fresh m.nextTag) (String.ofList (toString n).toList))
        { m with nextTag := m.nextTag + 1 } := rfl
  have hread := (outcome_stringToNumber_iff g s { m with nextTag := m.nextTag + 1 }
    (.fresh m.nextTag) (String.ofList (toString n).toList)).mpr
    (by rw [String.toList_ofList]; exact Literal.integer?_toString n)
  rw [Run.outcome_bind_of_ok hwrite]
  exact hread

/-- A word is the same integer in a program and in a string, unless it announces a base, so that
only the reader knows it, or has underscores between its digits, so that only `string->number` does.
An integer that is written to a string comes back from it. -/
theorem numerals_agree_iff :
    (∀ (text : String) (tag : Identity) (n : Int), Datum.IsOneWord text →
      ((Datum.readAll text = .ok [.int n] ↔
          (Builtin.call g s [.str tag text] .stringToNumber).outcome m = .ok (.int n)) ↔
        ¬(Atom.baseInt? text.toList = some n ∨
          Literal.decimalInt? text.toList = some n ∧ '_' ∈ text.toList))) ∧
    ∀ n : Int, (do
      let v ← Builtin.call g s [.int n] .numberToString
      Builtin.call g s [v] .stringToNumber).outcome m = .ok (.int n) := by
  refine ⟨fun text tag n hword => ?_, outcome_stringToNumber_numberToString g s m⟩
  rw [hword.readAll_eq_int_iff, outcome_stringToNumber_iff,
    Literal.integer?_ten hword.isBlank_eq_false]
  have hbase : Atom.baseInt? text.toList = some n → Literal.decimalInt? text.toList ≠ some n := by
    intro hn hdecimal
    rw [Atom.decimalInt?_of_baseInt? (by rw [hn]; exact Option.some_ne_none n)] at hdecimal
    cases hdecimal
  tauto

/-- Foreign digits behind a sign. -/
theorem numerals_agree_foreign :
    let g := Engine.ofAllowance 0
    let s := Scope.ofModule Machine.defaultId
    let m := Machine.initial "2.10" false .empty
    Datum.IsOneWord "+٤２" ∧ Datum.readAll "+٤２" = .ok [.int 42] ∧
      (Builtin.call g s [.str .symbolName "+٤２"] .stringToNumber).outcome m = .ok (.int 42) := by
  intro g s m
  have hword : Datum.IsOneWord "+٤２" := by
    unfold Datum.IsOneWord
    cbv
  have hdecimal : Literal.decimalInt? "+٤２".toList = some 42 := by decide +kernel
  have hbase : Atom.baseInt? "+٤２".toList = none := by decide +kernel
  have hmark : '_' ∉ "+٤２".toList := by decide +kernel
  have hread : Datum.readAll "+٤２" = .ok [.int 42] :=
    hword.readAll_eq_int_iff.mpr (.inl ⟨hdecimal, hmark⟩)
  have hagrees := ((numerals_agree_iff g s m).1 "+٤２" .symbolName 42 hword).mpr fun h =>
    h.elim (fun h => by rw [hbase] at h; cases h) fun h => hmark h.2
  exact ⟨hword, hread, hagrees.mp hread⟩

/-- A hexadecimal numeral is no number as a string, and underscores are for strings only. -/
example : Datum.readAll "#x10" = .ok [.int 16] ∧ Literal.integer? 10 "#x10".toList = none ∧
    Literal.integer? 10 "1_000".toList = some 1000 ∧ Atom.isInteger "1_000".toList = false := by
  refine ⟨?_, ?_, ?_, ?_⟩ <;> cbv

end Builtin

end LiveScheme
