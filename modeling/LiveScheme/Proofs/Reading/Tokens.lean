import LiveScheme.Datum.Reader
import LiveScheme.Proofs.Reading.Literal

/-!
# The tokens of a written datum

A datum has a list of tokens of its own, defined on the tree and not on its text. Scanning the
written datum in front of a gap answers exactly these tokens, provided that the names of its symbols
are words: every piece of the text ends where the printer ended it, whatever comes next.
-/

namespace LiveScheme

open Text Printer

namespace Lexed

def prepend (ts : List Token) (l : Lexed) : Lexed := ⟨ts ++ l.tokens, l.failure⟩

theorem prepend_nil (l : Lexed) : prepend [] l = l := rfl

theorem prepend_append (ts us : List Token) (l : Lexed) :
    prepend (ts ++ us) l = prepend ts (prepend us l) := by
  simp [prepend]

theorem cons_eq_prepend (t : Token) (l : Lexed) : cons t l = prepend [t] l := rfl

theorem scanFrom_of_token {total : Nat} {cs rest : List Char} {t : Token}
    (h : Token.scan (trimStart cs) = .token t rest) :
    scanFrom total cs = prepend [t] (scanFrom total rest) := by
  rw [scanFrom, ← cons_eq_prepend]
  split <;> simp_all

theorem scanFrom_of_skipped {total : Nat} {cs rest : List Char}
    (h : Token.scan (trimStart cs) = .skipped rest) : scanFrom total cs = scanFrom total rest := by
  rw [scanFrom]
  split <;> simp_all

theorem scanFrom_of_gap {total : Nat} {cs : List Char} {gap : Gap}
    (h : Token.scan (trimStart cs) = .gap gap) :
    scanFrom total cs = ⟨[], some (.incomplete gap)⟩ := by
  rw [scanFrom]
  split <;> simp_all

theorem scanFrom_of_ended {total : Nat} {cs : List Char}
    (h : Token.scan (trimStart cs) = .ended) : scanFrom total cs = ⟨[], none⟩ := by
  rw [scanFrom]
  split <;> simp_all

theorem scanFrom_of_dangling {total : Nat} {cs : List Char}
    (h : Token.scan (trimStart cs) = .dangling) :
    scanFrom total cs = ⟨[], some (.unexpectedChar (total - cs.length) (cs.headD ' '))⟩ := by
  rw [scanFrom]
  split <;> simp_all

theorem head_trimStart (cs : List Char) : ∀ c ∈ (trimStart cs).head?, isBlank c = false :=
  Token.head_dropWhile

theorem trimStart_append_cons {blanks : List Char} (hb : ∀ c ∈ blanks, isBlank c = true) {c : Char}
    (hc : isBlank c = false) (rest : List Char) : trimStart (blanks ++ c :: rest) = c :: rest :=
  Token.dropWhile_append_of_all hb fun d hd => by cases hd; exact hc

/-- Blanks in front of a token are passed over. -/
theorem scanFrom_blanks_append {total : Nat} {blanks : List Char}
    (hb : ∀ c ∈ blanks, isBlank c = true) {c : Char} (hc : isBlank c = false) {cs rest : List Char}
    {t : Token} (h : Token.scan (c :: cs) = .token t rest) :
    scanFrom total (blanks ++ c :: cs) = prepend [t] (scanFrom total rest) := by
  apply scanFrom_of_token
  rw [trimStart_append_cons hb hc, h]

theorem scanFrom_blank {total : Nat} {cs : List Char} (h : ∀ c ∈ cs, isBlank c = true) :
    scanFrom total cs = ⟨[], none⟩ := by
  apply scanFrom_of_ended
  rw [trimStart, List.dropWhile_eq_nil_iff.mpr h]
  rfl

end Lexed

namespace Token

def dot : Token := ⟨.word, ['.']⟩

def listOpen : Token := ⟨.listOpen, ['(']⟩

def vectorOpen : Token := ⟨.vectorOpen, ['#', '(']⟩

def close : Token := ⟨.close, [')']⟩

def ofBool (b : Bool) : Token := ⟨.bool, if b then ['#', 't'] else ['#', 'f']⟩

def ofInt (n : Int) : Token := ⟨.word, (toString n).toList⟩

def ofText (text : String) : Token := ⟨.text, writeText text.toList⟩

def ofChar (c : Char) : Token := ⟨.char, writeChar c⟩

theorem isWord_dot : IsWord ['.'] := ⟨by decide, by decide, rfl⟩

theorem isWord_true : IsWord ['#', 't'] := ⟨by decide, by decide, rfl⟩

theorem isWord_false : IsWord ['#', 'f'] := ⟨by decide, by decide, rfl⟩

end Token

/-- Not itself a chain of pairs, so that it can only end one. -/
def Node.endsChain {ι ρ : Type} : Node ι ρ → Bool
  | .list _ _ | .improper _ _ _ => false
  | _ => true

namespace Datum

mutual

/-- The tokens that stand for a datum. -/
def tokens : Datum → List Token
  | .bool b => [Token.ofBool b]
  | .int n => [Token.ofInt n]
  | .real x => [Token.ofWord (writeReal x)]
  | .str text => [Token.ofText text]
  | .char c => [Token.ofChar c]
  | .sym name => [Token.ofWord name.toList]
  | .list items => Token.listOpen :: itemsTokens items ++ [Token.close]
  | .vector items => Token.vectorOpen :: itemsTokens items ++ [Token.close]
  | .improper items tail =>
    Token.listOpen :: itemsTokens items ++ Token.dot :: tokens tail ++ [Token.close]
  | .object kind _ => kind.elim

def itemsTokens : List Datum → List Token
  | [] => []
  | x :: rest => tokens x ++ itemsTokens rest

end

/-- Trees over atoms that satisfy `p`, whose improper lists are as flat as can be. -/
inductive Over (p : Datum → Prop) : Datum → Prop
  | bool (b : Bool) : p (.bool b) → Over p (.bool b)
  | int (n : Int) : p (.int n) → Over p (.int n)
  | real (x : Float) : p (.real x) → Over p (.real x)
  | str (text : String) : p (.str text) → Over p (.str text)
  | char (c : Char) : p (.char c) → Over p (.char c)
  | sym (name : String) : p (.sym name) → Over p (.sym name)
  | list (items : List Datum) : (∀ d ∈ items, Over p d) → Over p (.list items)
  | vector (items : List Datum) : (∀ d ∈ items, Over p d) → Over p (.vector items)
  | improper (items : List Datum) (tail : Datum) : items ≠ [] → (∀ d ∈ items, Over p d) →
    Over p tail → tail.endsChain = true → Over p (.improper items tail)

theorem Over.mono {p q : Datum → Prop} (hpq : ∀ d, p d → q d) {d : Datum} (h : Over p d) :
    Over q d := by
  induction h with
  | bool b hp => exact .bool b (hpq _ hp)
  | int n hp => exact .int n (hpq _ hp)
  | real x hp => exact .real x (hpq _ hp)
  | str text hp => exact .str text (hpq _ hp)
  | char c hp => exact .char c (hpq _ hp)
  | sym name hp => exact .sym name (hpq _ hp)
  | list items _ ih => exact .list items ih
  | vector items _ ih => exact .vector items ih
  | improper items tail hne _ _ hflat ih iht => exact .improper items tail hne ih iht hflat

/-- Symbols whose names are words. -/
def IsSpelt : Datum → Prop
  | .sym name => Token.IsWord name.toList
  | _ => True

/-- Atoms whose text is one token: no reals, and symbols whose names are words. -/
def IsLexical : Datum → Prop
  | .sym name => Token.IsWord name.toList
  | .real _ => False
  | _ => True

theorem isSpelt_of_isLexical {d : Datum} (h : d.IsLexical) : d.IsSpelt := by
  cases d with
  | real => exact h.elim
  | sym name => exact h
  | _ => trivial

end Datum

namespace Lexed

/-- The text `w` is the tokens `ts` wherever a gap follows it. -/
def Yields (w : List Char) (ts : List Token) : Prop :=
  ∀ (total : Nat) (blanks rest : List Char), (∀ c ∈ blanks, isBlank c = true) →
    Token.AtGap rest → scanFrom total (blanks ++ (w ++ rest)) = prepend ts (scanFrom total rest)

theorem yields_of_scan {c : Char} {cs : List Char} {t : Token} (hc : isBlank c = false)
    (h : ∀ rest, Token.AtGap rest → Token.scan (c :: cs ++ rest) = .token t rest) :
    Yields (c :: cs) [t] := by
  intro total blanks rest hb hr
  exact scanFrom_blanks_append hb hc (h rest hr)

theorem yields_word {w : List Char} (hw : Token.IsWord w) : Yields w [Token.ofWord w] := by
  cases w with
  | nil => exact absurd rfl hw.ne_nil
  | cons c w =>
    have hc : isBlank c = false := Token.isBlank_of_isWordChar (hw.chars c (by simp))
    exact yields_of_scan hc fun rest hr => Token.scan_word_append hw hr

theorem yields_append_space {w v : List Char} {ts us : List Token} (hw : Yields w ts)
    (hv : Yields v us) : Yields (w ++ ' ' :: v) (ts ++ us) := by
  intro total blanks rest hb hr
  have hspace : Token.AtGap (' ' :: v ++ rest) := Token.atGap_cons (by decide) (v ++ rest)
  calc
    _ = scanFrom total (blanks ++ (w ++ (' ' :: v ++ rest))) := by simp
    _ = prepend ts (scanFrom total ([' '] ++ (v ++ rest))) := hw total blanks _ hb hspace
    _ = _ := by rw [hv total [' '] rest (by decide) hr, prepend_append]

theorem scanFrom_close (total : Nat) (rest : List Char) :
    scanFrom total (')' :: rest) = prepend [Token.close] (scanFrom total rest) :=
  scanFrom_blanks_append (List.forall_mem_nil _) (by decide) rfl

theorem atGap_close (rest : List Char) : Token.AtGap (')' :: rest) :=
  Token.atGap_cons (by decide) rest

/-- A bracket that opens, what it encloses, and the one that closes. -/
theorem yields_bracket {c : Char} (cs : List Char) {w : List Char} {t : Token} {ts : List Token}
    (hc : isBlank c = false)
    (ho : ∀ rest, Token.scan (c :: cs ++ rest) = .token t rest)
    (hw : ∀ total rest, Token.AtGap rest →
      scanFrom total (w ++ rest) = prepend ts (scanFrom total rest)) :
    Yields (c :: cs ++ w ++ [')']) (t :: ts ++ [Token.close]) := by
  intro total blanks rest hb _
  calc
    _ = scanFrom total (blanks ++ c :: (cs ++ (w ++ ')' :: rest))) := by simp
    _ = prepend [t] (scanFrom total (w ++ ')' :: rest)) :=
      scanFrom_blanks_append hb hc (by simpa using ho (w ++ ')' :: rest))
    _ = _ := by
      rw [hw total _ (atGap_close rest), scanFrom_close]
      simp [prepend]

theorem yields_items {items : List Datum}
    (h : ∀ d ∈ items, Yields (Node.chars Empty.elim true d) d.tokens) (hne : items ≠ []) :
    Yields (Node.itemsChars Empty.elim true items) (Datum.itemsTokens items) := by
  induction items with
  | nil => exact absurd rfl hne
  | cons x rest ih =>
    have hx := h x (by simp)
    cases rest with
    | nil => simpa [Node.itemsChars, Datum.itemsTokens] using hx
    | cons y rest =>
      have hrest := ih (fun d hd => h d (List.mem_cons_of_mem x hd)) (by simp)
      exact yields_append_space hx hrest

/-- The items of a list right after the bracket that opens it. -/
theorem scanFrom_items {items : List Datum}
    (h : ∀ d ∈ items, Yields (Node.chars Empty.elim true d) d.tokens) (total : Nat)
    (rest : List Char) (hr : Token.AtGap rest) :
    scanFrom total (Node.itemsChars Empty.elim true items ++ rest) =
      prepend (Datum.itemsTokens items) (scanFrom total rest) := by
  cases items with
  | nil => rfl
  | cons x more => exact yields_items h (by simp) total [] rest (List.forall_mem_nil _) hr

/-- Scanning a written datum answers its tokens. -/
theorem yields_of_isSpelt {d : Datum} (h : d.Over Datum.IsSpelt) :
    Yields (Node.chars Empty.elim true d) d.tokens := by
  induction h with
  | bool b _ =>
    cases b
    · exact yields_word Token.isWord_false
    · exact yields_word Token.isWord_true
  | int n _ =>
    have hw := yields_word (Token.isWord_toString n)
    rw [Token.ofWord_toString] at hw
    exact hw
  | real x _ => exact yields_word (isWord_writeReal x)
  | str text _ =>
    exact yields_of_scan (by decide) fun rest _ => Token.scan_writeText_append text.toList rest
  | char c _ =>
    exact yields_of_scan (by decide) fun rest hr => Token.scan_writeChar_append c hr
  | sym name hw => exact yields_word hw
  | list items _ ih =>
    exact yields_bracket [] (by decide) (fun _ => rfl) (scanFrom_items ih)
  | vector items _ ih =>
    exact yields_bracket ['('] (by decide) (fun _ => rfl) (scanFrom_items ih)
  | improper items tail hne _ _ _ ih iht =>
    have hdot : Yields (['.'] ++ ' ' :: Node.chars Empty.elim true tail)
        ([Token.dot] ++ tail.tokens) := yields_append_space (yields_word Token.isWord_dot) iht
    have hinner := yields_append_space (yields_items ih hne) hdot
    have hall := yields_bracket (c := '(') [] (t := Token.listOpen) (by decide)
      (fun _ => rfl) fun total rest hr => hinner total [] rest (List.forall_mem_nil _) hr
    simpa [Node.chars, Datum.tokens] using hall

theorem yields_chars {d : Datum} (h : d.Over Datum.IsLexical) :
    Yields (Node.chars Empty.elim true d) d.tokens :=
  yields_of_isSpelt (h.mono fun _ => Datum.isSpelt_of_isLexical)

/-- Blanks at the end of a text add nothing to its tokens. -/
theorem ofText_of_yields {cs blanks : List Char} {ts : List Token} (hy : Yields cs ts)
    (hb : ∀ c ∈ blanks, isBlank c = true) : ofText (cs ++ blanks) = ⟨ts, none⟩ := by
  have hgap : Token.AtGap blanks := fun c hc => by
    simp [Token.isGap, hb c (List.mem_of_mem_head? hc)]
  have hall := hy (cs ++ blanks).length [] blanks (List.forall_mem_nil _) hgap
  rw [List.nil_append, scanFrom_blank hb] at hall
  rw [ofText, hall, prepend, List.append_nil]

theorem ofText_chars {d : Datum} (h : d.Over Datum.IsLexical) :
    ofText (Node.chars Empty.elim true d) = ⟨d.tokens, none⟩ := by
  have hnone : ∀ c ∈ [], isBlank c = true := List.forall_mem_nil _
  have hall := ofText_of_yields (yields_chars h) hnone
  rwa [List.append_nil] at hall

end Lexed

end LiveScheme
