import LiveScheme.Proofs.Reading.ReadBack
import Mathlib

/-!
# The names in what is read

Names are what is left when no other kind of token matches, and some of the other kinds look at the
character that follows. A truth value in front of a quotation mark is therefore a name, and so is a
number sign with a backslash at the end of a text. The printer puts a blank or a bracket after a
name, and there these five names are taken for something else. All other names that were read stand
for themselves wherever they are written, and so do the data that they are part of.
-/

namespace LiveScheme

namespace Datum

mutual

/-- The names of the symbols in a datum, from left to right. -/
def names : Datum → List String
  | .sym name => [name]
  | .list items | .vector items => namesOf items
  | .improper items tail => namesOf items ++ names tail
  | _ => []

def namesOf : List Datum → List String
  | [] => []
  | d :: rest => names d ++ namesOf rest

end

theorem mem_namesOf {ds : List Datum} {name : String} :
    name ∈ namesOf ds ↔ ∃ d ∈ ds, name ∈ d.names := by
  induction ds with
  | nil => simp [namesOf]
  | cons d rest ih => simp [namesOf, ih]

/-- What is assumed of all atoms is assumed of the symbols. -/
theorem Over.sym_of_mem_names {p : Datum → Prop} {d : Datum} (h : Over p d) {name : String}
    (hname : name ∈ d.names) : p (.sym name) := by
  induction h with
  | sym s hp =>
    rw [names, List.mem_singleton] at hname
    exact hname ▸ hp
  | list items _ ih | vector items _ ih =>
    obtain ⟨d, hd, hname⟩ := mem_namesOf.mp hname
    exact ih d hd hname
  | improper items tail _ _ _ _ ih iht =>
    rcases List.mem_append.mp hname with hname | hname
    · obtain ⟨d, hd, hname⟩ := mem_namesOf.mp hname
      exact ih d hd hname
    · exact iht hname
  | _ => cases hname

/-- What holds of the names, and of the other atoms anyway, holds of the tree. -/
theorem Over.of_names {p q : Datum → Prop} {d : Datum} (h : Over p d)
    (hnames : ∀ name ∈ d.names, q (.sym name))
    (hrest : ∀ a, (∀ name, a ≠ .sym name) → p a → q a) : Over q d := by
  induction h with
  | bool b hp => exact .bool b (hrest _ nofun hp)
  | int n hp => exact .int n (hrest _ nofun hp)
  | real x hp => exact .real x (hrest _ nofun hp)
  | str text hp => exact .str text (hrest _ nofun hp)
  | char c hp => exact .char c (hrest _ nofun hp)
  | sym name => exact .sym name (hnames name List.mem_cons_self)
  | list items _ ih =>
    exact .list items fun d hd => ih d hd fun name hname =>
      hnames name (mem_namesOf.mpr ⟨d, hd, hname⟩)
  | vector items _ ih =>
    exact .vector items fun d hd => ih d hd fun name hname =>
      hnames name (mem_namesOf.mpr ⟨d, hd, hname⟩)
  | improper items tail hne _ _ hflat ih iht =>
    refine .improper items tail hne (fun d hd => ?_) (iht fun name hname => ?_) hflat
    · exact ih d hd fun name hname =>
        hnames name (List.mem_append_left _ (mem_namesOf.mpr ⟨d, hd, hname⟩))
    · exact hnames name (List.mem_append_right _ hname)

/-- A tree without reals is readable as soon as its names are. -/
theorem Over.readable {p : Datum → Prop} {d : Datum} (h : Over p d) (hr : d.hasReal = false)
    (hnames : ∀ name ∈ d.names, ReadableName name) : d.Readable := by
  have hatoms : Over (fun a => a.hasReal = false) d := h.mono_of_hasReal (fun _ ha _ => ha) hr
  refine hatoms.of_names hnames fun a hsym ha => ?_
  cases a with
  | sym name => exact absurd rfl (hsym name)
  | real => cases ha
  | _ => trivial

end Datum

/-- The names that are something else in front of a blank or a bracket: the truth values, and what
begins a character. -/
def misread : List String := ["#t", "#true", "#f", "#false", "#\\"]

theorem mem_misread_iff {name : String} :
    name ∈ misread ↔ Token.boolWords.contains name.toList = true ∨ name = "#\\" := by
  have htoList : ∀ s : String, name = s ↔ name.toList = s.toList := fun s =>
    String.toList_inj.symm
  simp [misread, Token.boolWords, htoList, or_assoc]

theorem mem_misread_of_mem_boolWords {w : List Char} (h : w ∈ Token.boolWords) :
    String.ofList w ∈ misread := by
  rw [mem_misread_iff, String.toList_ofList]
  exact .inl (by simpa using h)

namespace Datum

/-- A name that was read. -/
structure ReadName (name : String) : Prop where
  ne_dot : name ≠ "."
  denotes : Atom.word name.toList = .ok (.sym name)
  isWord : Token.IsWord name.toList ∨ name = "#\\"

theorem ReadName.of_named {cs : List Char} {name : String}
    (h : Named (Lexed.ofText cs).tokens name) : ReadName name := by
  rcases h with hquote | ⟨t, ht, hk, htext, hdot, hdenotes⟩
  · have hread := readableName_of_quote hquote
    exact ⟨hread.ne_dot, hread.denotes, .inl hread.isWord⟩
  · refine ⟨hdot, hdenotes, ?_⟩
    rcases Lexed.isWord_of_mem_tokens ht hk with hword | ⟨hlast, -⟩
    · exact .inl (htext ▸ hword)
    · right
      rw [← String.ofList_toList (s := name), ← htext, hlast]

theorem readName_of_readAll {source : String} {forms : List Datum}
    (h : readAll source = .ok forms) {d : Datum} (hd : d ∈ forms) {name : String}
    (hname : name ∈ d.names) : ReadName name :=
  .of_named ((named_of_readAll h d hd).sym_of_mem_names hname)

theorem ReadName.readableName_iff {name : String} (h : ReadName name) :
    ReadableName name ↔ name ∉ misread := by
  rw [mem_misread_iff, not_or, Bool.not_eq_true]
  constructor
  · intro hread
    refine ⟨?_, ?_⟩
    · have hkind := congrArg Token.kind hread.ofWord
      have hbool := Token.ofWord_not_mem hkind
      rwa [Token.ofWord_text] at hbool
    · rintro rfl
      exact absurd hread.isWord.opens (by decide)
  · rintro ⟨hbool, hbare⟩
    exact .of_isWord h.ne_dot h.denotes (h.isWord.resolve_right hbare) hbool

/-- Symbols by names that were read. -/
def IsRead : Datum → Prop
  | .sym name => ReadName name
  | _ => True

theorem over_isRead_of_readAll {source : String} {forms : List Datum}
    (h : readAll source = .ok forms) {d : Datum} (hd : d ∈ forms) : d.Over IsRead :=
  (named_of_readAll h d hd).mono fun a ha => by
    cases a with
    | sym name => exact .of_named ha
    | _ => trivial

/-- Names that are not misread, and reals whose text denotes them. -/
def IsLegible : Datum → Prop
  | .sym name => name ∉ misread
  | .real x => Atom.word (Printer.writeReal x) = .ok (.real x)
  | _ => True

/-- Data whose text stands for them in front of a blank or a bracket. -/
abbrev Legible : Datum → Prop := Over IsLegible

theorem legible_iff {d : Datum} (h : d.Over IsRead) :
    d.Legible ↔ d.reread = d ∧ "#\\" ∉ d.names := by
  rw [reread_eq_self_iff h]
  constructor
  · intro hd
    refine ⟨hd.mono fun a ha => ?_, fun hname => ?_⟩
    · cases a with
      | sym name =>
        have hname : name ∉ misread := ha
        rw [mem_misread_iff, not_or] at hname
        exact Bool.eq_false_iff.mpr hname.1
      | real => exact ha
      | _ => trivial
    · have hbare : "#\\" ∉ misread := hd.sym_of_mem_names hname
      exact hbare (by decide)
  · rintro ⟨hfaithful, hbare⟩
    refine hfaithful.of_names (fun name hname => ?_) fun a hsym ha => ?_
    · have hbool : Token.boolWords.contains name.toList = false := hfaithful.sym_of_mem_names hname
      intro hmisread
      obtain hword | rfl := mem_misread_iff.mp hmisread
      · exact absurd hword (by rw [hbool]; decide)
      · exact hbare hname
    · cases a with
      | sym name => exact absurd rfl (hsym name)
      | real => exact ha
      | _ => trivial

/-- The data with `d` at some place, and otherwise made of readable data. -/
inductive Surrounds (d : Datum) : Datum → Prop where
  | here : Surrounds d d
  | list (before after : List Datum) (e : Datum) : (∀ x ∈ before ++ after, x.Readable) →
      Surrounds d e → Surrounds d (.list (before ++ e :: after))
  | vector (before after : List Datum) (e : Datum) : (∀ x ∈ before ++ after, x.Readable) →
      Surrounds d e → Surrounds d (.vector (before ++ e :: after))
  | item (before after : List Datum) (e tail : Datum) : (∀ x ∈ before ++ after, x.Readable) →
      tail.Readable → tail.endsChain = true → Surrounds d e →
      Surrounds d (.improper (before ++ e :: after) tail)
  | tail (items : List Datum) (e : Datum) : items ≠ [] → (∀ x ∈ items, x.Readable) →
      e.endsChain = true → Surrounds d e → Surrounds d (.improper items e)

theorem forall_mem_middle {before after : List Datum} {e : Datum}
    (h : ∀ x ∈ before ++ after, x.Readable) (he : e.Readable) :
    ∀ x ∈ before ++ e :: after, x.Readable := by
  intro x hx
  rcases List.mem_append.mp hx with hx | hx
  · exact h x (List.mem_append_left _ hx)
  · rcases List.mem_cons.mp hx with rfl | hx
    · exact he
    · exact h x (List.mem_append_right _ hx)

theorem Surrounds.readable {d e : Datum} (h : Surrounds d e) (hd : d.Readable) : e.Readable := by
  induction h with
  | here => exact hd
  | list before after e hrest _ ih => exact .list _ (forall_mem_middle hrest ih)
  | vector before after e hrest _ ih => exact .vector _ (forall_mem_middle hrest ih)
  | item before after e tail hrest htail hflat _ ih =>
    exact .improper _ _ (by simp) (forall_mem_middle hrest ih) htail hflat
  | tail items e hne hitems hflat _ ih => exact .improper _ _ hne hitems ih hflat

/-- A datum reads back everywhere when it is readable; a list around it is enough to tell. -/
theorem reads_everywhere_iff {d : Datum} (hr : d.hasReal = false) :
    (∀ e, Surrounds d e → readAll e.write = .ok [e]) ↔ d.Readable := by
  constructor
  · intro h
    have hlist := h (.list ([] ++ d :: [])) (.list [] [] d (by simp) .here)
    have hreal : (Datum.list [d]).hasReal = false := anyReal_of_forall (by simpa using hr)
    rcases readable_of_readAll hreal hlist with hread | hbare
    · cases hread with
      | list items hitems => exact hitems d List.mem_cons_self
    · cases hbare
  · exact fun h e he => (he.readable h).readsBack.readAll

theorem readable_iff_names {source : String} {forms : List Datum}
    (h : readAll source = .ok forms) {d : Datum} (hd : d ∈ forms) (hr : d.hasReal = false) :
    d.Readable ↔ ∀ name ∈ d.names, name ∉ misread := by
  constructor
  · intro hread name hname
    have hreadable : ReadableName name := Over.sym_of_mem_names hread hname
    exact (readName_of_readAll h hd hname).readableName_iff.mp hreadable
  · intro hnames
    exact (named_of_readAll h d hd).readable hr fun name hname =>
      (readName_of_readAll h hd hname).readableName_iff.mpr (hnames name hname)

/-- Every name that was read stands for itself, and is one token in front of a bracket unless it is
one of the five that are misread. Data without reals read back as they were written in every place
exactly when none of these five occurs in them. -/
theorem names_of_readAll {source : String} {forms : List Datum} (h : readAll source = .ok forms) :
    ∀ d ∈ forms,
      (∀ name ∈ d.names, name ≠ "." ∧ Atom.word name.toList = .ok (.sym name) ∧
        (Lexed.ofText (name.toList ++ [')']) = ⟨[⟨.word, name.toList⟩, Token.close], none⟩ ↔
          name ∉ misread)) ∧
      (d.hasReal = false →
        ((∀ e, Surrounds d e → readAll e.write = .ok [e]) ↔
          ∀ name ∈ d.names, name ∉ misread)) := by
  intro d hd
  refine ⟨fun name hname => ?_, fun hr => ?_⟩
  · have hread := readName_of_readAll h hd hname
    refine ⟨hread.ne_dot, hread.denotes, ?_⟩
    rw [← hread.readableName_iff]
    exact ⟨fun hscans => ⟨hread.ne_dot, hread.denotes, hscans⟩, fun hreadable => hreadable.scans⟩
  · exact (reads_everywhere_iff hr).trans (readable_iff_names h hd hr)

/-- A pair, a truth value that is taken for a name, and the beginning of a character. -/
theorem names_of_readAll_truth : ∃ forms, readAll "(a . b) #t'#\\" = .ok forms ∧
    forms = [.improper [.sym "a"] (.sym "b"), .sym "#t", .list [.sym "quote", .sym "#\\"]] ∧
    (∀ e, Surrounds (.improper [.sym "a"] (.sym "b")) e → readAll e.write = .ok [e]) ∧
    ¬ (∀ e, Surrounds (.list [.sym "quote", .sym "#\\"]) e → readAll e.write = .ok [e]) := by
  have hread : readAll "(a . b) #t'#\\" =
      .ok [.improper [.sym "a"] (.sym "b"), .sym "#t", .list [.sym "quote", .sym "#\\"]] := by
    cbv
  refine ⟨_, hread, rfl, ?_, ?_⟩
  · exact ((names_of_readAll hread _ (by simp)).2 rfl).mpr (by decide)
  · intro hall
    have hnames := ((names_of_readAll hread _ (by simp)).2 rfl).mp hall
    exact hnames "#\\" (by simp [names, namesOf]) (by decide)

end Datum

end LiveScheme
