import LiveScheme.Proofs.Reading.Prefix

/-!
# Data that read back as written

Whatever is read is made of atoms that some token brought. When a datum without reals reads back as
it was written, its symbols are therefore words of its own text, which fixes the tokens of that
text, and the datum is readable. The one exception is the name that begins like a character: it
reads back only because its text ends there.
-/

namespace LiveScheme

open Text

namespace Datum

mutual

def hasReal : Datum → Bool
  | .real _ => true
  | .list items | .vector items => anyReal items
  | .improper items tail => anyReal items || hasReal tail
  | _ => false

def anyReal : List Datum → Bool
  | [] => false
  | d :: rest => hasReal d || anyReal rest

end

theorem anyReal_eq_false {ds : List Datum} (h : anyReal ds = false) :
    ∀ d ∈ ds, d.hasReal = false := by
  induction ds with
  | nil => exact List.forall_mem_nil _
  | cons x rest ih =>
    simp only [anyReal, Bool.or_eq_false_iff] at h
    exact List.forall_mem_cons.mpr ⟨h.1, ih h.2⟩

theorem anyReal_of_forall {ds : List Datum} (h : ∀ d ∈ ds, d.hasReal = false) :
    anyReal ds = false := by
  induction ds with
  | nil => rfl
  | cons x rest ih =>
    obtain ⟨hx, hrest⟩ := List.forall_mem_cons.mp h
    rw [anyReal, hx, ih hrest]
    rfl

theorem Readable.hasReal_eq_false {d : Datum} (h : d.Readable) : d.hasReal = false := by
  induction h with
  | bool | int | str | char | sym => rfl
  | real x hx => exact hx.elim
  | list items _ ih => exact anyReal_of_forall ih
  | vector items _ ih => exact anyReal_of_forall ih
  | improper items tail _ _ _ _ ih iht => rw [hasReal, anyReal_of_forall ih, iht]; rfl

/-- Reals aside, a stronger property of atoms carries over to trees. -/
theorem Over.mono_of_hasReal {p q : Datum → Prop}
    (hpq : ∀ d, d.hasReal = false → p d → q d) {d : Datum} (h : Over p d)
    (hr : d.hasReal = false) : Over q d := by
  induction h with
  | bool b hp => exact .bool b (hpq _ hr hp)
  | int n hp => exact .int n (hpq _ hr hp)
  | real x hp => exact .real x (hpq _ hr hp)
  | str text hp => exact .str text (hpq _ hr hp)
  | char c hp => exact .char c (hpq _ hr hp)
  | sym name hp => exact .sym name (hpq _ hr hp)
  | list items _ ih => exact .list items fun d hd => ih d hd (anyReal_eq_false hr d hd)
  | vector items _ ih => exact .vector items fun d hd => ih d hd (anyReal_eq_false hr d hd)
  | improper items tail hne _ _ hflat ih iht =>
    simp only [hasReal, Bool.or_eq_false_iff] at hr
    exact .improper items tail hne (fun d hd => ih d hd (anyReal_eq_false hr.1 d hd)) (iht hr.2)
      hflat

theorem over_attach {p : Datum → Prop} {items : List Datum} (hne : items ≠ [])
    (h : ∀ d ∈ items, Over p d) {tail : Datum} (ht : Over p tail) :
    Over p (Node.attach () items tail) := by
  have happend : ∀ {more}, (∀ d ∈ more, Over p d) → ∀ d ∈ items ++ more, Over p d := by
    intro more hmore d hd
    rcases List.mem_append.mp hd with hd | hd
    · exact h d hd
    · exact hmore d hd
  cases ht with
  | list more hmore => exact .list _ (happend hmore)
  | improper more tail _ hmore ht hflat =>
    exact .improper _ tail (by simp [hne]) (happend hmore) ht hflat
  | bool b hp => exact .improper items _ hne h (.bool b hp) rfl
  | int n hp => exact .improper items _ hne h (.int n hp) rfl
  | real x hp => exact .improper items _ hne h (.real x hp) rfl
  | str text hp => exact .improper items _ hne h (.str text hp) rfl
  | char c hp => exact .improper items _ hne h (.char c hp) rfl
  | sym name hp => exact .improper items _ hne h (.sym name hp) rfl
  | vector more hmore => exact .improper items _ hne h (.vector more hmore) rfl

namespace Reading

/-- Everything that an open construct has taken so far is made of such atoms. -/
def OpenOver (p : Datum → Prop) : Open → Prop
  | .list items | .vector items => ∀ d ∈ items, Over p d
  | .quoted name => p (.sym name)
  | .ignored | .wanted => True
  | .dotted items => items ≠ [] ∧ ∀ d ∈ items, Over p d
  | .sealed items tail => items ≠ [] ∧ (∀ d ∈ items, Over p d) ∧ Over p tail

structure ReadOver (p : Datum → Prop) (r : Reading) : Prop where
  done : ∀ d ∈ r.done, Over p d
  stack : ∀ o ∈ r.stack, OpenOver p o

/-- The atoms that a token can bring. -/
structure Brings (p : Datum → Prop) (t : Token) : Prop where
  bool : ∀ b, p (.bool b)
  str : ∀ text, p (.str text)
  char : ∀ c, p (.char c)
  quote : t.kind = .quote ∨ t.kind = .unquote → p (.sym (quoteName t.text))
  word : t.kind = .word → t.text ≠ ['.'] → ∀ d, Atom.word t.text = .ok d → Over p d

variable {p : Datum → Prop}

theorem readOver_deliver {done : List Datum} {d : Datum} {stack : List Open}
    (hdone : ∀ d ∈ done, Over p d) (hd : Over p d) (hstack : ∀ o ∈ stack, OpenOver p o) :
    ReadOver p (deliver done d stack) := by
  have hcons : ∀ {ds}, (∀ d ∈ ds, Over p d) → ∀ e ∈ d :: ds, Over p e := fun hds =>
    List.forall_mem_cons.mpr ⟨hd, hds⟩
  fun_induction deliver done d stack with
  | case1 d => exact ⟨hcons hdone, List.forall_mem_nil _⟩
  | case2 d items stack =>
    obtain ⟨hitems, hrest⟩ := List.forall_mem_cons.mp hstack
    exact ⟨hdone, List.forall_mem_cons.mpr ⟨hcons hitems, hrest⟩⟩
  | case3 d items stack =>
    obtain ⟨hitems, hrest⟩ := List.forall_mem_cons.mp hstack
    exact ⟨hdone, List.forall_mem_cons.mpr ⟨hcons hitems, hrest⟩⟩
  | case4 d name stack ih =>
    obtain ⟨hname, hrest⟩ := List.forall_mem_cons.mp hstack
    have hquoted : Over p (Datum.list [.sym name, d]) := by
      refine .list _ (List.forall_mem_cons.mpr ⟨.sym name hname, ?_⟩)
      exact hcons (List.forall_mem_nil _)
    exact ih hquoted hrest fun hds => List.forall_mem_cons.mpr ⟨hquoted, hds⟩
  | case5 d stack =>
    obtain ⟨_, hrest⟩ := List.forall_mem_cons.mp hstack
    exact ⟨hdone, List.forall_mem_cons.mpr ⟨trivial, hrest⟩⟩
  | case6 d stack ih =>
    obtain ⟨_, hrest⟩ := List.forall_mem_cons.mp hstack
    exact ih hd hrest hcons
  | case7 d items stack =>
    obtain ⟨hitems, hrest⟩ := List.forall_mem_cons.mp hstack
    exact ⟨hdone, List.forall_mem_cons.mpr ⟨⟨hitems.1, hitems.2, hd⟩, hrest⟩⟩
  | case8 d items tail stack =>
    obtain ⟨hitems, hrest⟩ := List.forall_mem_cons.mp hstack
    exact ⟨hdone, List.forall_mem_cons.mpr ⟨⟨hitems.1, hitems.2.1, hd⟩, hrest⟩⟩

theorem readOver_close {r r' : Reading} {text : List Char} (hr : ReadOver p r)
    (h : close r text = .ok r') : ReadOver p r' := by
  obtain ⟨done, stack⟩ := r
  have hreverse : ∀ {ds : List Datum}, (∀ d ∈ ds, Over p d) → ∀ d ∈ ds.reverse, Over p d :=
    fun hds d hd => hds d (List.mem_reverse.mp hd)
  unfold close at h
  split at h
  · next items stack heq =>
    cases h
    cases heq
    obtain ⟨hitems, hrest⟩ := List.forall_mem_cons.mp hr.stack
    exact readOver_deliver hr.done (.list _ (hreverse hitems)) hrest
  · next items stack heq =>
    cases h
    cases heq
    obtain ⟨hitems, hrest⟩ := List.forall_mem_cons.mp hr.stack
    exact readOver_deliver hr.done (.vector _ (hreverse hitems)) hrest
  · next items tail stack heq =>
    cases h
    cases heq
    obtain ⟨⟨hne, hitems, htail⟩, hrest⟩ := List.forall_mem_cons.mp hr.stack
    exact readOver_deliver hr.done (over_attach (by simpa using hne) (hreverse hitems) htail) hrest
  · cases h

theorem readOver_dot {r r' : Reading} (hr : ReadOver p r) (h : dot r = .ok r') :
    ReadOver p r' := by
  obtain ⟨done, stack⟩ := r
  unfold dot at h
  split at h
  · cases h
  · next items stack hne heq =>
    cases h
    cases heq
    obtain ⟨hitems, hrest⟩ := List.forall_mem_cons.mp hr.stack
    have hsome : items ≠ [] := by
      rintro rfl
      exact hne rfl
    exact ⟨hr.done, List.forall_mem_cons.mpr ⟨⟨hsome, hitems⟩, hrest⟩⟩
  · cases h

theorem Brings.opened {t : Token} {o : Open} (ht : Brings p t) (h : t.opened? = some o) :
    OpenOver p o := by
  obtain ⟨kind, text⟩ := t
  cases kind with
  | datumComment => cases h; exact trivial
  | quote => cases h; exact ht.quote (.inl rfl)
  | unquote => cases h; exact ht.quote (.inr rfl)
  | vectorOpen | listOpen => cases h; exact List.forall_mem_nil _
  | close | text | char | bool | word => cases h

theorem Brings.denoted {t : Token} {d : Datum} (ht : Brings p t)
    (h : t.denoted? = some (.ok d)) : Over p d := by
  obtain ⟨kind, text⟩ := t
  cases kind with
  | datumComment | quote | unquote | vectorOpen | listOpen | close => cases h
  | bool => cases h; exact .bool _ (ht.bool _)
  | text =>
    simp only [Token.denoted?] at h
    cases hb : Atom.unescape (inner text) with
    | error f => rw [hb] at h; cases h
    | ok body => rw [hb] at h; cases h; exact .str _ (ht.str _)
  | char =>
    simp only [Token.denoted?] at h
    cases hc : Atom.char (text.drop 2) with
    | error e => rw [hc] at h; cases h
    | ok c => rw [hc] at h; cases h; exact .char _ (ht.char _)
  | word =>
    simp only [Token.denoted?] at h
    split at h
    · cases h
    · next hdot => exact ht.word rfl hdot d (Option.some.inj h)

theorem readOver_take {r r' : Reading} {t : Token} (hr : ReadOver p r) (ht : Brings p t)
    (h : take r t = .ok r') : ReadOver p r' := by
  cases taking t with
  | opens o ho htake =>
    rw [htake] at h
    cases h
    exact ⟨hr.done, List.forall_mem_cons.mpr ⟨ht.opened ho, hr.stack⟩⟩
  | denotes x hx htake =>
    rw [htake] at h
    cases x with
    | error e => cases h
    | ok d =>
      cases h
      exact readOver_deliver hr.done (ht.denoted hx) hr.stack
  | closes _ htake => exact readOver_close hr (htake r ▸ h)
  | dots _ htake => exact readOver_dot hr (htake r ▸ h)

theorem readOver_step {r r' : Reading} {t : Token} (hr : ReadOver p r) (ht : Brings p t)
    (h : step r t = .ok r') : ReadOver p r' := by
  unfold step at h
  split at h
  · split at h
    · exact readOver_close hr h
    · cases h
  · exact readOver_take hr ht h

theorem readOver_run {r r' : Reading} {ts : List Token} (hr : ReadOver p r)
    (hts : ∀ t ∈ ts, Brings p t) (h : run r ts = .ok r') : ReadOver p r' :=
  run_keeps (fun t ht _ _ hs => readOver_step hs (hts t ht)) hr h

end Reading

/-- What is read is made of what its tokens bring. -/
theorem over_of_readAll {p : Datum → Prop} {source : String} {forms : List Datum}
    (h : readAll source = .ok forms)
    (hts : ∀ t ∈ (Lexed.ofText source.toList).tokens, Reading.Brings p t) :
    ∀ d ∈ forms, Over p d := by
  obtain ⟨done, hrun, -, rfl⟩ := readAll_eq_ok h
  have hstart : Reading.ReadOver p Reading.start := {
    done := fun d hd => by cases hd
    stack := fun o ho => by cases ho }
  have hover := Reading.readOver_run hstart hts hrun
  exact fun d hd => hover.done d (List.mem_reverse.mp hd)

/-- The names that tokens bring: those of abbreviations, and words that denote themselves. -/
def Named (ts : List Token) (name : String) : Prop :=
  name ∈ ["quote", "quasiquote", "unquote", "unquote-splicing"] ∨
    ∃ t ∈ ts, t.kind = .word ∧ t.text = name.toList ∧ name ≠ "." ∧
      Atom.word name.toList = .ok (.sym name)

def IsNamed (ts : List Token) : Datum → Prop
  | .sym name => Named ts name
  | _ => True

theorem quoteName_mem (text : List Char) :
    Reading.quoteName text ∈ ["quote", "quasiquote", "unquote", "unquote-splicing"] := by
  unfold Reading.quoteName
  split <;> simp

theorem brings_isNamed {ts : List Token} {t : Token} (ht : t ∈ ts) :
    Reading.Brings (IsNamed ts) t where
  bool _ := trivial
  str _ := trivial
  char _ := trivial
  quote _ := .inl (quoteName_mem t.text)
  word hk hdot d hd := by
    rcases word_cases hd with ⟨n, rfl⟩ | ⟨x, rfl⟩ | rfl
    · exact .int n trivial
    · exact .real x trivial
    · refine .sym _ (.inr ⟨t, ht, hk, (String.toList_ofList).symm, ?_, ?_⟩)
      · intro hname
        rw [← String.toList_ofList (l := t.text), hname] at hdot
        exact hdot rfl
      · rwa [String.toList_ofList]

/-- The names in what is read come from the tokens of the text. -/
theorem named_of_readAll {source : String} {forms : List Datum} (h : readAll source = .ok forms) :
    ∀ d ∈ forms, Over (IsNamed (Lexed.ofText source.toList).tokens) d :=
  over_of_readAll h fun _ ht => brings_isNamed ht

end Datum

namespace Lexed

/-- A word in a text is a word, but for the beginning of a character at the very end. -/
theorem isWord_of_mem_tokens {total : Nat} {cs : List Char} {t : Token}
    (ht : t ∈ (scanFrom total cs).tokens) (hk : t.kind = .word) :
    Token.IsWord t.text ∨ t.text = ['#', '\\'] ∧ ['#', '\\'] <:+ cs := by
  obtain ⟨rest, hscan, hsuffix, hhead⟩ := scan_of_mem_tokens ht
  obtain hword | ⟨htext, rfl⟩ := Token.isWord_of_scan hhead hscan hk
  · exact .inl hword
  · rw [htext, List.append_nil] at hsuffix
    exact .inr ⟨htext, hsuffix⟩

end Lexed

namespace Datum

theorem mem_itemsTokens {items : List Datum} {t : Token} (ht : t ∈ itemsTokens items) :
    ∃ d ∈ items, t ∈ d.tokens := by
  induction items with
  | nil => cases ht
  | cons x rest ih =>
    rcases List.mem_append.mp ht with ht | ht
    · exact ⟨x, List.mem_cons_self, ht⟩
    · obtain ⟨d, hd, ht⟩ := ih ht
      exact ⟨d, List.mem_cons_of_mem x hd, ht⟩

/-- No token of a datum is a word that stands for a truth value. -/
theorem tokens_not_mem_boolWords {p : Datum → Prop} {d : Datum} (h : Over p d) {t : Token}
    (ht : t ∈ d.tokens) (hk : t.kind = .word) : Token.boolWords.contains t.text = false := by
  induction h with
  | bool b _ => cases List.mem_singleton.mp ht; cases hk
  | int n _ =>
    have hword : t = Token.ofWord (toString n).toList := by
      rw [Token.ofWord_toString]
      exact List.mem_singleton.mp ht
    subst hword
    exact Token.ofWord_not_mem hk
  | real x _ => cases List.mem_singleton.mp ht; exact Token.ofWord_not_mem hk
  | str text _ => cases List.mem_singleton.mp ht; cases hk
  | char c _ => cases List.mem_singleton.mp ht; cases hk
  | sym name _ => cases List.mem_singleton.mp ht; exact Token.ofWord_not_mem hk
  | list items _ ih =>
    simp only [tokens, List.cons_append, List.mem_cons, List.mem_append, List.not_mem_nil,
      or_false] at ht
    rcases ht with rfl | ht | rfl
    · cases hk
    · obtain ⟨d, hd, ht⟩ := mem_itemsTokens ht
      exact ih d hd ht
    · cases hk
  | vector items _ ih =>
    simp only [tokens, List.cons_append, List.mem_cons, List.mem_append, List.not_mem_nil,
      or_false] at ht
    rcases ht with rfl | ht | rfl
    · cases hk
    · obtain ⟨d, hd, ht⟩ := mem_itemsTokens ht
      exact ih d hd ht
    · cases hk
  | improper items tail _ _ _ _ ih iht =>
    simp only [tokens, List.cons_append, List.append_assoc, List.mem_cons, List.mem_append,
      List.not_mem_nil, or_false] at ht
    rcases ht with rfl | ht | rfl | ht | rfl
    · cases hk
    · obtain ⟨d, hd, ht⟩ := mem_itemsTokens ht
      exact ih d hd ht
    · rfl
    · exact iht ht
    · cases hk

/-- The text of a list or of a vector ends with a bracket, so that no name can end it. -/
theorem not_suffix_of_close {cs : List Char} : ¬ ['#', '\\'] <:+ cs ++ [')'] := by
  rintro ⟨front, heq⟩
  have hlast := congrArg List.getLast? heq
  simp at hlast

theorem readableName_of_quote {name : String}
    (h : name ∈ ["quote", "quasiquote", "unquote", "unquote-splicing"]) : ReadableName name := by
  revert name
  decide

theorem isWord_of_quote {name : String}
    (h : name ∈ ["quote", "quasiquote", "unquote", "unquote-splicing"]) :
    Token.IsWord name.toList := (readableName_of_quote h).isWord

/-- The name that begins like a character. -/
def bareName : Datum := .sym "#\\"

/-- When every name of a datum is a word, its text is its own tokens, and then the names that they
bring are readable. -/
theorem readable_of_isWord {d : Datum} (hr : d.hasReal = false) (h : readAll d.write = .ok [d])
    (hw : ∀ t ∈ (Lexed.ofText d.write.toList).tokens, t.kind = .word → Token.IsWord t.text) :
    d.Readable := by
  have hlexical : d.Over IsLexical := by
    refine (named_of_readAll h d List.mem_cons_self).mono_of_hasReal (fun a ha hp => ?_) hr
    cases a with
    | sym name =>
      rcases hp with hquote | ⟨t, ht, hk, htext, -⟩
      · exact isWord_of_quote hquote
      · have hword := hw t ht hk
        rwa [htext] at hword
    | real x => cases ha
    | _ => trivial
  have htokens : (Lexed.ofText d.write.toList).tokens = d.tokens := by
    rw [write, String.toList_ofList, Lexed.ofText_chars hlexical]
  refine (named_of_readAll h d List.mem_cons_self).mono_of_hasReal (fun a ha hp => ?_) hr
  cases a with
  | sym name =>
    rcases hp with hquote | ⟨t, ht, hk, htext, hdot, hdenotes⟩
    · exact readableName_of_quote hquote
    · have hword := hw t ht hk
      rw [htokens] at ht
      have hbool := tokens_not_mem_boolWords hlexical ht hk
      rw [htext] at hword hbool
      exact .of_isWord hdot hdenotes hword hbool
  | real x => cases ha
  | _ => trivial

/-- What reads back as it was written is readable, but for the name that begins like a character.
-/
theorem readable_of_readAll {d : Datum} (hr : d.hasReal = false)
    (h : readAll d.write = .ok [d]) : d.Readable ∨ d = bareName := by
  have hwords : ¬ ['#', '\\'] <:+ d.write.toList → d.Readable := fun hlast =>
    readable_of_isWord hr h fun t ht hk =>
      (Lexed.isWord_of_mem_tokens ht hk).resolve_right fun hbare => hlast hbare.2
  have hclose : ∀ cs, d.write.toList = cs ++ [')'] → d.Readable := fun cs heq =>
    hwords (heq ▸ not_suffix_of_close)
  cases d with
  | bool b => exact .inl (.bool b trivial)
  | int n => exact .inl (.int n trivial)
  | real tag x => cases hr
  | str tag text => exact .inl (.str text trivial)
  | char c => exact .inl (.char c trivial)
  | sym name =>
    by_cases hbare : name = "#\\"
    · exact .inr (congrArg Node.sym hbare)
    left
    have hword : Token.IsWord name.toList := by
      cases named_of_readAll h _ List.mem_cons_self with
      | sym name hn =>
        rcases hn with hquote | ⟨t, ht, hk, htext, -⟩
        · exact isWord_of_quote hquote
        · rcases Lexed.isWord_of_mem_tokens ht hk with hw | ⟨hlast, -⟩
          · rwa [htext] at hw
          · refine absurd ?_ hbare
            rw [← String.ofList_toList (s := name), ← htext, hlast]
    have htokens : (Lexed.ofText (Datum.write (.sym name)).toList).tokens =
        [Token.ofWord name.toList] := by
      have hlexical : Over IsLexical (.sym name) := .sym name hword
      rw [write, String.toList_ofList, Lexed.ofText_chars hlexical]
      rfl
    refine readable_of_isWord hr h fun t ht hk => ?_
    rw [htokens, List.mem_singleton] at ht
    rwa [ht, Token.ofWord_text]
  | list tag items =>
    exact .inl (hclose _ (by rw [write, String.toList_ofList, Node.chars]))
  | vector tag items =>
    exact .inl (hclose _ (by rw [write, String.toList_ofList, Node.chars]))
  | improper tag items tail =>
    exact .inl (hclose _ (by rw [write, String.toList_ofList, Node.chars]))
  | object kind parts => exact kind.elim

/-- Data that the printer and the reader agree on. -/
structure ReadsBack (d : Datum) : Prop where
  hasReal : d.hasReal = false
  readAll : Datum.readAll d.write = .ok [d]

theorem Readable.readsBack {d : Datum} (h : d.Readable) : d.ReadsBack where
  hasReal := h.hasReal_eq_false
  readAll := by
    have hread := h.reads (List.forall_mem_nil _)
    rwa [List.append_nil] at hread

theorem ReadsBack.readable {d : Datum} (h : d.ReadsBack) (hne : d ≠ bareName) :
    d.Readable := (readable_of_readAll h.hasReal h.readAll).resolve_right hne

end Datum

end LiveScheme
