import LiveScheme.Proofs.Reading.Tokens

/-!
# Reading what was written

The tokens of a datum bring back what it is reread as, in whatever construct they are read: each of
them is handed to the innermost open construct, and a closed list or vector is handed on. What comes
back differs from the datum in names that are taken for truth values, and in reals whose text
denotes another number. Together with the tokens of a written datum this gives the round trip: the
text of a readable datum reads as that datum alone. A datum is readable when it has no reals, its
improper lists are flat, and the names of its symbols stand for themselves in front of a closing
bracket, which can be decided.
-/

namespace LiveScheme

open Text Printer

namespace Lexed

/-- Tokens do not overlap. -/
theorem length_tokens_le (total : Nat) (cs : List Char) :
    ((scanFrom total cs).tokens.flatMap (·.text)).length ≤ cs.length := by
  fun_induction scanFrom total cs with
  | case1 cs h => simp
  | case2 cs rest h ih =>
    have hlt : rest.length < cs.length := Token.scan_trimStart_rest (by rw [h]; rfl)
    exact ih.trans hlt.le
  | case3 cs t rest h ih =>
    have heq := Token.eq_append_of_scan h
    have hle : (trimStart cs).length ≤ cs.length := Token.length_dropWhile_le _ _
    rw [heq, List.length_append] at hle
    simp only [cons, List.flatMap_cons, List.length_append]
    omega
  | case4 cs gap h => simp
  | case5 cs h => simp

end Lexed

/-- A name that stands for itself, also when a closing bracket follows. -/
structure ReadableName (name : String) : Prop where
  ne_dot : name ≠ "."
  denotes : Atom.word name.toList = .ok (.sym name)
  scans : Lexed.ofText (name.toList ++ [')']) = ⟨[⟨.word, name.toList⟩, Token.close], none⟩

namespace ReadableName

theorem isWord {name : String} (h : ReadableName name) : Token.IsWord name.toList := by
  have hs := h.scans
  rw [Lexed.ofText] at hs
  cases hscan : Token.scan (trimStart (name.toList ++ [')'])) with
  | ended => rw [Lexed.scanFrom_of_ended hscan] at hs; cases hs
  | gap gap => rw [Lexed.scanFrom_of_gap hscan] at hs; cases hs
  | dangling =>
    rw [Lexed.scanFrom_of_dangling hscan] at hs
    cases hs
  | skipped rest =>
    rw [Lexed.scanFrom_of_skipped hscan] at hs
    have hle := Lexed.length_tokens_le (name.toList ++ [')']).length rest
    have hlt : rest.length < (name.toList ++ [')']).length :=
      Token.scan_trimStart_rest (by rw [hscan]; rfl)
    rw [hs] at hle
    simp only [Token.close, List.flatMap_cons, List.flatMap_nil, List.length_cons,
      List.length_nil, List.length_append] at hle hlt
    omega
  | token t rest =>
    rw [Lexed.scanFrom_of_token hscan] at hs
    simp only [Lexed.prepend, List.cons_append, List.nil_append, Lexed.mk.injEq,
      List.cons.injEq] at hs
    obtain ⟨⟨rfl, hclose⟩, -⟩ := hs
    rcases Token.isWord_of_scan (Lexed.head_trimStart _) hscan rfl with hw | ⟨-, rfl⟩
    · exact hw
    · simp [Lexed.scanFrom_blank] at hclose

theorem ofWord {name : String} (h : ReadableName name) :
    Token.ofWord name.toList = ⟨.word, name.toList⟩ := by
  have hs := h.scans
  have hy := Lexed.yields_word h.isWord (name.toList ++ [')']).length [] [')']
    (List.forall_mem_nil _)
    (Lexed.atGap_close [])
  rw [List.nil_append] at hy
  rw [Lexed.ofText, hy] at hs
  simp only [Lexed.prepend, List.cons_append, List.nil_append, Lexed.mk.injEq,
    List.cons.injEq] at hs
  exact hs.1.1

/-- Names that are words, but neither a dot nor a truth value. -/
theorem of_isWord {name : String} (hd : name ≠ ".") (ha : Atom.word name.toList = .ok (.sym name))
    (hw : Token.IsWord name.toList) (hb : Token.boolWords.contains name.toList = false) :
    ReadableName name where
  ne_dot := hd
  denotes := ha
  scans := by
    have hy := Lexed.yields_word hw (name.toList ++ [')']).length [] [')']
      (List.forall_mem_nil _)
      (Lexed.atGap_close [])
    rw [List.nil_append] at hy
    rw [Lexed.ofText, hy, Lexed.scanFrom_close, Lexed.scanFrom_blank (by simp), Token.ofWord, hb]
    rfl

/-- Whether the name is a word that denotes it, and neither a dot nor a truth value. -/
def check (name : String) : Bool :=
  let cs := name.toList
  let denotes := match Atom.word cs with
    | .ok (.sym other) => other == name
    | _ => false
  name != "." && denotes && !cs.isEmpty && cs.all Token.isWordChar && Token.opensWord cs &&
    !Token.boolWords.contains cs

theorem check_iff {name : String} : check name = true ↔ ReadableName name := by
  constructor
  · intro h
    simp only [check, Bool.and_eq_true, bne_iff_ne, Bool.not_eq_true', List.isEmpty_eq_false_iff,
      List.all_eq_true] at h
    obtain ⟨⟨⟨⟨⟨hdot, hdenotes⟩, hne⟩, hchars⟩, hopens⟩, hbool⟩ := h
    refine .of_isWord hdot ?_ ⟨hne, hchars, hopens⟩ hbool
    split at hdenotes
    · next other hword => rw [hword, beq_iff_eq.mp hdenotes]
    · cases hdenotes
  · intro h
    have hbool := Token.ofWord_not_mem (congrArg Token.kind h.ofWord)
    rw [Token.ofWord_text] at hbool
    have hword := h.isWord
    simp only [check, h.denotes, beq_self_eq_true, hword.opens, hbool, Bool.and_eq_true,
      bne_iff_ne, Bool.not_eq_true', List.isEmpty_eq_false_iff, List.all_eq_true, Bool.not_false,
      and_true]
    exact ⟨⟨h.ne_dot, hword.ne_nil⟩, hword.chars⟩

instance : DecidablePred ReadableName := fun _ => decidable_of_iff _ check_iff

end ReadableName

namespace Datum

mutual

/-- What a datum is read as when it was written: a name that is a truth value becomes one, and a
real is what its text denotes. -/
def reread : Datum → Datum
  | .sym name =>
    if Token.boolWords.contains name.toList then .bool (name.toList.take 2 == ['#', 't'])
    else .sym name
  | .real x => (Atom.word (writeReal x)).toOption.getD (.bool false)
  | .list items => .list (rereadAll items)
  | .vector items => .vector (rereadAll items)
  | .improper items tail => .improper (rereadAll items) (reread tail)
  | d => d

def rereadAll : List Datum → List Datum
  | [] => []
  | d :: rest => reread d :: rereadAll rest

end

theorem word_cases {cs : List Char} {d : Datum} (h : Atom.word cs = .ok d) :
    (∃ n, d = .int n) ∨ (∃ x, d = .real x) ∨ d = .sym (String.ofList cs) := by
  unfold Atom.word at h
  split at h
  · cases h
    exact .inl ⟨_, rfl⟩
  split at h
  · split at h
    · cases h
      exact .inl ⟨_, rfl⟩
    · cases h
  split at h
  · cases h
    exact .inr (.inl ⟨_, rfl⟩)
  · cases h
    exact .inr (.inr rfl)

/-- Only words that announce a base can fail to denote anything. -/
theorem word_ok {cs : List Char} (h : '#' ∉ cs) : ∃ d, Atom.word cs = .ok d := by
  have hbase : Atom.announcedBase? cs = none := by
    unfold Atom.announcedBase?
    split <;> first | rfl | exact absurd List.mem_cons_self h
  unfold Atom.word
  rw [hbase]
  split
  · exact ⟨_, rfl⟩
  · dsimp only
    split <;> exact ⟨_, rfl⟩

theorem word_writeReal (x : Float) : Atom.word (writeReal x) = .ok (reread (.real x)) := by
  obtain ⟨d, hd⟩ := word_ok fun hc => (isWordChar_writeReal x _ hc).2 rfl
  rw [reread, hd]
  rfl

theorem endsChain_reread {d : Datum} (h : d.endsChain = true) : d.reread.endsChain = true := by
  cases d with
  | sym name =>
    rw [reread]
    split <;> rfl
  | real tag x =>
    obtain ⟨n, hd⟩ | ⟨y, hd⟩ | hd := word_cases (word_writeReal x) <;> rw [hd] <;> rfl
  | list | improper => cases h
  | object kind => exact kind.elim
  | _ => rfl

/-- Symbols that their names denote. -/
def IsDenoted : Datum → Prop
  | .sym name => name ≠ "." ∧ Atom.word name.toList = .ok (.sym name)
  | _ => True

/-- Atoms that are read as they were written: no truth values among the names, and reals whose text
denotes them. -/
def IsFaithful : Datum → Prop
  | .sym name => Token.boolWords.contains name.toList = false
  | .real x => Atom.word (writeReal x) = .ok (.real x)
  | _ => True

theorem rereadAll_eq_self_iff {items : List Datum} :
    rereadAll items = items ↔ ∀ d ∈ items, d.reread = d := by
  induction items with
  | nil => simp [rereadAll]
  | cons x rest ih => simp [rereadAll, ih]

/-- A datum is read as it was written exactly when its atoms are. -/
theorem reread_eq_self_iff {p : Datum → Prop} {d : Datum} (h : d.Over p) :
    d.reread = d ↔ d.Over IsFaithful := by
  induction h with
  | bool b => exact ⟨fun _ => .bool b trivial, fun _ => rfl⟩
  | int n => exact ⟨fun _ => .int n trivial, fun _ => rfl⟩
  | str text => exact ⟨fun _ => .str text trivial, fun _ => rfl⟩
  | char c => exact ⟨fun _ => .char c trivial, fun _ => rfl⟩
  | real x =>
    have hword := word_writeReal x
    refine ⟨fun heq => .real x (hword.trans (congrArg Except.ok heq)), fun hover => ?_⟩
    cases hover with
    | real x hx => exact Except.ok.inj (hword.symm.trans hx)
  | sym name =>
    rw [reread]
    constructor
    · intro heq
      split at heq
      · cases heq
      · next hbool => exact .sym name (Bool.eq_false_iff.mpr hbool)
    · intro hover
      cases hover with
      | sym name hname => exact if_neg (Bool.eq_false_iff.mp hname)
  | list items _ ih =>
    rw [reread]
    constructor
    · intro heq
      have hitems := rereadAll_eq_self_iff.mp (Node.list.inj heq).2
      exact .list items fun d hd => (ih d hd).mp (hitems d hd)
    · intro hover
      cases hover with
      | list items hitems =>
        rw [rereadAll_eq_self_iff.mpr fun d hd => (ih d hd).mpr (hitems d hd)]
  | vector items _ ih =>
    rw [reread]
    constructor
    · intro heq
      have hitems := rereadAll_eq_self_iff.mp (Node.vector.inj heq).2
      exact .vector items fun d hd => (ih d hd).mp (hitems d hd)
    · intro hover
      cases hover with
      | vector items hitems =>
        rw [rereadAll_eq_self_iff.mpr fun d hd => (ih d hd).mpr (hitems d hd)]
  | improper items tail hne _ _ hflat ih iht =>
    rw [reread]
    constructor
    · intro heq
      obtain ⟨-, hitems, htail⟩ := Node.improper.inj heq
      have hitems := rereadAll_eq_self_iff.mp hitems
      exact .improper items tail hne (fun d hd => (ih d hd).mp (hitems d hd)) (iht.mp htail) hflat
    · intro hover
      cases hover with
      | improper items tail _ hitems htail _ =>
        rw [rereadAll_eq_self_iff.mpr fun d hd => (ih d hd).mpr (hitems d hd), iht.mpr htail]

end Datum

namespace Datum.Reading

theorem run_append (r : Reading) (ts us : List Token) :
    run r (ts ++ us) = run r ts >>= fun r => run r us := by
  induction ts generalizing r with
  | nil => rfl
  | cons t ts ih =>
    simp only [List.cons_append, run, bind_assoc]
    congr 1
    funext r
    exact ih r

/-- The innermost construct can take a datum. -/
def Takes : List Open → Prop
  | .sealed _ _ :: _ => False
  | _ => True

theorem step_of_takes {r : Reading} (h : Takes r.stack) (t : Token) : step r t = take r t := by
  unfold step
  split
  · next heq => rw [heq] at h; exact h.elim
  · rfl

theorem run_cons_of_takes {r : Reading} (h : Takes r.stack) (t : Token) (ts : List Token) :
    run r (t :: ts) = take r t >>= fun r => run r ts := by
  rw [run, step_of_takes h]

/-- The tokens of `d`, read at any place where a datum can stand, hand `d` over there. -/
def Delivers (ts : List Token) (d : Datum) : Prop :=
  ∀ (done : List Datum) (stack : List Open), Takes stack →
    run ⟨done, stack⟩ ts = .ok (deliver done d stack)

theorem delivers_of_take {t : Token} {d : Datum}
    (h : ∀ done stack, take ⟨done, stack⟩ t = .ok (deliver done d stack)) : Delivers [t] d := by
  intro done stack hs
  rw [run_cons_of_takes hs, h]
  rfl

theorem delivers_word {w : List Char} {d : Datum} (hd : w ≠ ['.']) (hw : Atom.word w = .ok d) :
    Delivers [⟨.word, w⟩] d := by
  apply delivers_of_take
  intro done stack
  simp only [take, if_neg hd, hw]
  rfl

theorem delivers_int (n : Int) : Delivers [Token.ofInt n] (.int n) := by
  apply delivers_word _ (Atom.word_toString n)
  intro heq
  have hdot : ∀ c ∈ (toString n).toList, c ≠ '.' := fun _ hc =>
    Literal.forall_toString (p := fun c => c ≠ '.') (by decide) (by decide) hc
  exact hdot '.' (by rw [heq]; simp) rfl

/-- A text between quotation marks, with its characters escaped, hands over the text. -/
theorem delivers_quotation {f : Char → List Char} (hf : Printer.Escapes f) (text : String) :
    Delivers [⟨.text, '\x22' :: text.toList.flatMap f ++ ['\x22']⟩] (Datum.str text) := by
  apply delivers_of_take
  intro done stack
  have hinner : inner ('\x22' :: text.toList.flatMap f ++ ['\x22']) = text.toList.flatMap f := by
    simp [inner]
  simp only [take, hinner, Atom.unescape_flatMap hf]
  simp [Except.mapError, bind, Except.bind, pure, Except.pure]

theorem delivers_text (text : String) : Delivers [Token.ofText text] (Datum.str text) :=
  delivers_quotation Printer.escapeChar_cases text

theorem delivers_char (c : Char) : Delivers [Token.ofChar c] (.char c) := by
  apply delivers_of_take
  intro done stack
  simp only [take, Token.ofChar, Printer.char_drop_writeChar]
  rfl

theorem delivers_bool (b : Bool) : Delivers [Token.ofBool b] (.bool b) := by
  apply delivers_of_take
  intro done stack
  cases b <;> rfl

theorem delivers_real (x : Float) :
    Delivers [Token.ofWord (writeReal x)] (reread (.real x)) := by
  rw [Token.ofWord_of_not_mem fun hc => (isWordChar_writeReal x _ hc).2 rfl]
  refine delivers_word (fun heq => ?_) (word_writeReal x)
  have hlength := two_le_length_writeReal x
  rw [heq] at hlength
  exact absurd hlength (by decide)

theorem delivers_sym {name : String} (h : IsDenoted (.sym name)) :
    Delivers [Token.ofWord name.toList] (reread (.sym name)) := by
  rw [reread, Token.ofWord]
  split
  · exact delivers_of_take fun _ _ => rfl
  · refine delivers_word (fun heq => h.1 ?_) h.2
    rw [← String.ofList_toList (s := name), heq]

section Items

variable {items : List Datum} (h : ∀ d ∈ items, Delivers d.tokens d.reread)

include h

/-- Items gather in the open list or vector around them. -/
theorem run_itemsTokens (frame : List Datum → Open)
    (hf : ∀ done d acc stack,
      deliver done d (frame acc :: stack) = ⟨done, frame (d :: acc) :: stack⟩)
    (ht : ∀ acc stack, Takes (frame acc :: stack)) (done acc : List Datum) (stack : List Open) :
    run ⟨done, frame acc :: stack⟩ (itemsTokens items) =
      .ok ⟨done, frame ((rereadAll items).reverse ++ acc) :: stack⟩ := by
  induction items generalizing acc with
  | nil => rfl
  | cons x rest ih =>
    rw [itemsTokens, run_append, h x (by simp) done _ (ht acc stack), hf]
    change run ⟨done, frame (x.reread :: acc) :: stack⟩ (itemsTokens rest) = _
    rw [ih fun d hd => h d (List.mem_cons_of_mem x hd)]
    simp [rereadAll]

theorem run_listItems (done : List Datum) (stack : List Open) :
    run ⟨done, .list [] :: stack⟩ (itemsTokens items) =
      .ok ⟨done, .list (rereadAll items).reverse :: stack⟩ := by
  have hrun := run_itemsTokens h .list (fun _ _ _ _ => rfl) (fun _ _ => trivial) done [] stack
  rwa [List.append_nil] at hrun

theorem delivers_list : Delivers (Datum.list items).tokens (Datum.list items).reread := by
  intro done stack hs
  rw [tokens, List.cons_append, run_cons_of_takes hs, reread]
  change run ⟨done, .list [] :: stack⟩ (itemsTokens items ++ [Token.close]) = _
  rw [run_append, run_listItems h]
  change Except.ok (deliver done (Datum.list (rereadAll items).reverse.reverse) stack) = _
  rw [List.reverse_reverse]

theorem delivers_vector : Delivers (Datum.vector items).tokens (Datum.vector items).reread := by
  intro done stack hs
  have hitems := run_itemsTokens h .vector (fun _ _ _ _ => rfl) (fun _ _ => trivial) done [] stack
  rw [tokens, List.cons_append, run_cons_of_takes hs, reread]
  change run ⟨done, .vector [] :: stack⟩ (itemsTokens items ++ [Token.close]) = _
  rw [run_append, hitems]
  change Except.ok (deliver done (Datum.vector ((rereadAll items).reverse ++ []).reverse) stack) = _
  rw [List.append_nil, List.reverse_reverse]

end Items

theorem attach_of_endsChain {items : List Datum} {tail : Datum} (h : tail.endsChain = true) :
    Node.attach () items tail = Datum.improper items tail := by
  unfold Node.attach
  split <;> first | rfl | cases h

theorem delivers_improper {items : List Datum} {tail : Datum} (hne : items ≠ [])
    (h : ∀ d ∈ items, Delivers d.tokens d.reread) (ht : Delivers tail.tokens tail.reread)
    (hflat : tail.endsChain = true) :
    Delivers (Datum.improper items tail).tokens (Datum.improper items tail).reread := by
  intro done stack hs
  have hdot : dot ⟨done, .list (rereadAll items).reverse :: stack⟩ =
      .ok ⟨done, .dotted (rereadAll items).reverse :: stack⟩ := by
    cases hrev : (rereadAll items).reverse with
    | nil =>
      cases items with
      | nil => exact absurd rfl hne
      | cons x rest => cases List.reverse_eq_nil_iff.mp hrev
    | cons x rest => rfl
  simp only [tokens, List.cons_append, List.append_assoc]
  rw [run_cons_of_takes hs, reread]
  change run ⟨done, .list [] :: stack⟩
    (itemsTokens items ++ (Token.dot :: (tail.tokens ++ [Token.close]))) = _
  rw [run_append, run_listItems h]
  change (dot ⟨done, .list (rereadAll items).reverse :: stack⟩ >>=
    fun r => run r (tail.tokens ++ [Token.close])) = _
  rw [hdot]
  change run ⟨done, .dotted (rereadAll items).reverse :: stack⟩ (tail.tokens ++ [Token.close]) = _
  rw [run_append, ht done (.dotted (rereadAll items).reverse :: stack) trivial]
  change Except.ok (deliver done
    (Node.attach () (rereadAll items).reverse.reverse tail.reread) stack) = _
  rw [List.reverse_reverse, attach_of_endsChain (endsChain_reread hflat)]

end Datum.Reading

namespace Datum

/-- No reals, and symbols by names that stand for themselves. -/
def IsReadable : Datum → Prop
  | .sym name => ReadableName name
  | .real _ => False
  | _ => True

/-- Data that the printer can write down: built from truth values, integers, strings, characters
and symbols by lists, vectors and improper lists. -/
abbrev Readable : Datum → Prop := Over IsReadable

theorem Readable.lexical {d : Datum} (h : d.Readable) : d.Over IsLexical := by
  refine Over.mono (fun a ha => ?_) h
  cases a with
  | sym name => exact ReadableName.isWord ha
  | real => exact ha
  | _ => trivial

/-- The tokens of a datum hand over what it is read as. -/
theorem Over.delivers_reread {d : Datum} (h : d.Over IsDenoted) :
    Reading.Delivers d.tokens d.reread := by
  induction h with
  | bool b _ => exact Reading.delivers_bool b
  | int n _ => exact Reading.delivers_int n
  | real x _ => exact Reading.delivers_real x
  | str text _ => exact Reading.delivers_text text
  | char c _ => exact Reading.delivers_char c
  | sym name hname => exact Reading.delivers_sym hname
  | list items _ ih => exact Reading.delivers_list ih
  | vector items _ ih => exact Reading.delivers_vector ih
  | improper items tail hne _ _ hflat ih iht => exact Reading.delivers_improper hne ih iht hflat

theorem Readable.reread_eq {d : Datum} (h : d.Readable) : d.reread = d := by
  refine (reread_eq_self_iff h).mpr (h.mono fun a ha => ?_)
  cases a with
  | sym name =>
    have hname : ReadableName name := ha
    have hword := hname.ofWord
    rw [Token.ofWord] at hword
    split at hword
    · cases hword
    · next hbool => exact Bool.eq_false_iff.mpr hbool
  | real => exact ha.elim
  | _ => trivial

/-- The tokens of a readable datum hand it over. -/
theorem Readable.delivers {d : Datum} (h : d.Readable) : Reading.Delivers d.tokens d := by
  have hdenoted : d.Over IsDenoted := h.mono fun a ha => by
    cases a with
    | sym name => exact ⟨ReadableName.ne_dot ha, ReadableName.denotes ha⟩
    | _ => trivial
  have hdelivers := hdenoted.delivers_reread
  rwa [h.reread_eq] at hdelivers

theorem readAll_empty : readAll "" = .ok [] := by
  cbv

/-- A text of tokens that hand over one datum reads as that datum, also in front of blanks. -/
theorem readAll_of_yields {cs : List Char} {ts : List Token} {d : Datum} (hy : Lexed.Yields cs ts)
    (hd : Reading.Delivers ts d) {blanks : List Char} (hb : ∀ c ∈ blanks, Text.isBlank c = true) :
    readAll (String.ofList (cs ++ blanks)) = .ok [d] := by
  have hrun : Reading.start.run ts = .ok ⟨[d], []⟩ := hd [] [] trivial
  rw [readAll, String.toList_ofList, Lexed.ofText_of_yields hy hb]
  simp only [hrun]
  rfl

theorem Readable.reads {d : Datum} (h : d.Readable) {blanks : List Char}
    (hb : ∀ c ∈ blanks, Text.isBlank c = true) :
    readAll (String.ofList (Node.chars Empty.elim true d ++ blanks)) = .ok [d] :=
  readAll_of_yields (Lexed.yields_chars h.lexical) h.delivers hb

/-- Reading undoes writing. -/
theorem readAll_write {d : Datum} (h : d.Readable) : readAll d.write = .ok [d] := by
  have hnone : ∀ c ∈ [], Text.isBlank c = true := List.forall_mem_nil _
  have hread := h.reads hnone
  rwa [List.append_nil] at hread

theorem readableName_listRef : ReadableName "list-ref" := by decide

/-- A vector of a character, a string and a dotted pair inside a list. -/
def sample : Datum :=
  .list [.sym "list-ref", .vector [.char ' ', .str "a\n\"b"], .improper [.int (-7)] (.bool true)]

theorem readable_sample : sample.Readable := by
  have hvector : (Datum.vector [.char ' ', .str "a\n\"b"]).Readable := by
    refine .vector _ fun d hd => ?_
    simp only [List.mem_cons, List.not_mem_nil, or_false] at hd
    rcases hd with rfl | rfl
    · exact .char ' ' trivial
    · exact .str _ trivial
  have hpair : (Datum.improper [.int (-7)] (.bool true)).Readable :=
    .improper _ _ (by simp) (by simpa using .int (-7) trivial) (.bool true trivial) rfl
  refine .list _ fun d hd => ?_
  simp only [List.mem_cons, List.not_mem_nil, or_false] at hd
  rcases hd with rfl | rfl | rfl
  · exact .sym _ readableName_listRef
  · exact hvector
  · exact hpair

theorem readAll_write_sample : sample.Readable ∧
    readAll "(list-ref #(#\\space \"a\\n\\\"b\") (-7 . #t))" = .ok [sample] := by
  have hwrite : sample.write = "(list-ref #(#\\space \"a\\n\\\"b\") (-7 . #t))" := by cbv
  rw [← hwrite]
  exact ⟨readable_sample, readAll_write readable_sample⟩

end Datum

end LiveScheme
