import LiveScheme.Editor.Decode
import LiveScheme.Proofs.Reading.Fault

/-!
# Malformed replies

Decoding a text ends with a result, with an error of the protocol or with a fault. A fault comes
from the reader, where an escape denotes no character, or from a part of the datum that has to be
walked through and is a number, a truth value or a symbol. In a signature it comes as well from a
section of parameters that has no title or whose title cannot be set. Every other text is decoded
or reported.
-/

namespace LiveScheme

namespace Decoded

variable {α β : Type} {x : Decoded α} {c c' : Bool}

/-- Ends with a result or with an error of the protocol. -/
def Reports (x : Decoded α) : Prop :=
  (∃ a, x = .ok a) ∨ ∃ e : EditorError, x = .error (.error e) ∧ e.category = .protocol

/-- Faults where the condition holds, and ends with a result or a report where it does not. -/
structure FaultsExactly (x : Decoded α) (c : Bool) : Prop where
  faults : c = true → ∃ f, x = .error (.fault f)
  reports : c = false → x.Reports

/-- Faults where the condition holds, and ends with a result where it does not. -/
structure DecodesUnless (x : Decoded α) (c : Bool) : Prop where
  faults : c = true → ∃ f, x = .error (.fault f)
  decodes : c = false → ∃ a, x = .ok a

theorem DecodesUnless.faultsExactly (h : x.DecodesUnless c) : x.FaultsExactly c :=
  ⟨h.faults, fun hc => .inl (h.decodes hc)⟩

theorem decodesUnless_ok (a : α) : DecodesUnless (.ok a) false :=
  ⟨nofun, fun _ => ⟨a, rfl⟩⟩

theorem decodesUnless_faulty (f : Fault) : DecodesUnless (Decode.faulty f : Decoded α) true :=
  ⟨fun _ => ⟨f, rfl⟩, nofun⟩

theorem faultsExactly_protocol {e : EditorError} (he : e.category = .protocol) :
    FaultsExactly (Decode.protocol e : Decoded α) false :=
  ⟨nofun, fun _ => .inr ⟨e, rfl, he⟩⟩

theorem DecodesUnless.bind {k : α → Decoded β} (hx : x.DecodesUnless c)
    (hk : ∀ a, (k a).DecodesUnless c') : (x >>= k).DecodesUnless (c || c') := by
  cases c with
  | true => obtain ⟨f, rfl⟩ := hx.faults rfl; exact decodesUnless_faulty f
  | false => obtain ⟨a, rfl⟩ := hx.decodes rfl; exact hk a

theorem DecodesUnless.bind_faultsExactly {k : α → Decoded β} (hx : x.DecodesUnless c)
    (hk : ∀ a, (k a).FaultsExactly c') : (x >>= k).FaultsExactly (c || c') := by
  cases c with
  | true => obtain ⟨f, rfl⟩ := hx.faults rfl; exact (decodesUnless_faulty f).faultsExactly
  | false => obtain ⟨a, rfl⟩ := hx.decodes rfl; exact hk a

theorem DecodesUnless.map (hx : x.DecodesUnless c) (k : α → β) :
    (x >>= fun a => pure (k a)).DecodesUnless c :=
  Bool.or_false c ▸ hx.bind fun a => decodesUnless_ok (k a)

theorem FaultsExactly.map (hx : x.FaultsExactly c) (k : α → β) :
    (x >>= fun a => pure (k a)).FaultsExactly c := by
  cases c with
  | true => obtain ⟨f, rfl⟩ := hx.faults rfl; exact (decodesUnless_faulty f).faultsExactly
  | false =>
    obtain ⟨a, rfl⟩ | ⟨e, rfl, he⟩ := hx.reports rfl
    · exact (decodesUnless_ok (k a)).faultsExactly
    · exact faultsExactly_protocol he

end Decoded

namespace Decode

open Decoded

variable {α : Type}

/-- A number, a truth value or a symbol. -/
def isScalar : Datum → Bool
  | .bool _ | .int _ | .real _ | .sym _ => true
  | _ => false

theorem partsOf_decodes (d : Datum) : (partsOf d).DecodesUnless (isScalar d) := by
  cases d with
  | bool | int | real | sym => exact decodesUnless_faulty _
  | str | char | list | vector | improper => exact decodesUnless_ok _
  | object kind => exact kind.elim

theorem names_decodes (d : Datum) : (names d).DecodesUnless (isScalar d) :=
  (partsOf_decodes d).map _

/-- The reader faults on the text, or it reads a datum that is spoilt. -/
def isSpoilt (spoilt : Datum → Bool) (text : String) : Bool :=
  match Datum.readOne text with
  | .ok d => spoilt d
  | .error (.fault _) => true
  | .error _ => false

theorem parse_bind {k : Datum → Decoded α} {spoilt : Datum → Bool}
    (hk : ∀ d, (k d).FaultsExactly (spoilt d)) (text : String) :
    (parse text >>= k).FaultsExactly (isSpoilt spoilt text) := by
  unfold parse isSpoilt
  cases Datum.readOne text with
  | ok d => exact hk d
  | error e =>
    cases e with
    | fault f => exact (decodesUnless_faulty f).faultsExactly
    | _ => exact faultsExactly_protocol rfl

/-! ### Evaluation replies -/

/-- The values of an envelope that carries no error are no sequence. -/
def spoiltValues (d : Datum) : Bool :=
  match errorOf d, labelled? d "result", labelled? d "output" with
  | none, some result, some _ => isScalar (rest result)
  | _, _, _ => false

theorem evalReply_faultsExactly (text : String) :
    (evalReply text).FaultsExactly (isSpoilt spoiltValues text) := by
  refine parse_bind (fun d => ?_) text
  unfold spoiltValues
  cases errorOf d with
  | some reply => exact (decodesUnless_ok reply).faultsExactly
  | none =>
    cases labelled? d "result" with
    | none => exact faultsExactly_protocol rfl
    | some result =>
      cases labelled? d "output" with
      | none => exact faultsExactly_protocol rfl
      | some output => exact ((partsOf_decodes (rest result)).map _).faultsExactly

example : spoiltValues (.list [.improper [.sym "result"] (.int 5),
    .improper [.sym "output"] (.str "")]) = true := by decide

/-! ### Texts -/

theorem strings_faultsExactly (text : String) :
    (strings text).FaultsExactly (isSpoilt (fun _ => false) text) := by
  refine parse_bind (fun d => ?_) text
  split
  · split
    · exact (decodesUnless_ok _).faultsExactly
    · exact faultsExactly_protocol rfl
  · exact faultsExactly_protocol rfl

theorem string_faultsExactly (text : String) :
    (string text).FaultsExactly (isSpoilt (fun _ => false) text) := by
  refine parse_bind (fun d => ?_) text
  split
  · exact (decodesUnless_ok _).faultsExactly
  · exact faultsExactly_protocol rfl

/-! ### Export listings -/

/-- The names of a part of a listing are no sequence; what follows a missing part is not seen. -/
def spoiltListing (d : Datum) : List String → Bool
  | [] => false
  | title :: more =>
    match labelled? d title with
    | some entry => isScalar (rest entry) || spoiltListing d more
    | none => false

theorem bucket_bind {text : String} {d : Datum} {title : String} {more : List String}
    {k : List String → Decoded α} (hk : ∀ ss, (k ss).FaultsExactly (spoiltListing d more)) :
    (bucket text d title >>= k).FaultsExactly (spoiltListing d (title :: more)) := by
  unfold bucket spoiltListing
  cases labelled? d title with
  | some entry => exact (names_decodes (rest entry)).bind_faultsExactly hk
  | none => exact faultsExactly_protocol rfl

def spoiltExports (d : Datum) : Bool := spoiltListing d ["modules", "procs", "syntax", "vars"]

theorem moduleExports_faultsExactly (text : String) :
    (moduleExports text).FaultsExactly (isSpoilt spoiltExports text) := by
  refine parse_bind (fun d => ?_) text
  refine bucket_bind fun modules => bucket_bind fun procs => bucket_bind fun keywords => ?_
  exact bucket_bind fun vars => (decodesUnless_ok _).faultsExactly

/-! ### Signatures -/

/-- Titles of what an entry has besides its sections. -/
def isReserved (title : String) : Bool :=
  ["has_args", "__weakref__", "__class__", "__dict__"].contains title

theorem setSection_decodes (e : AutodocEntry) (title : String) (ss : List String) :
    DecodesUnless ((e.setSection title ss).mapError .fault) (isReserved title) := by
  unfold AutodocEntry.setSection
  split
  case h_8 | h_9 | h_10 | h_11 => exact decodesUnless_faulty _
  case h_12 =>
    have hfree : isReserved title = false := by simp_all [isReserved]
    rw [hfree]
    exact decodesUnless_ok e
  all_goals exact decodesUnless_ok _

/-- A section of parameters without a title, with a reserved title or without a sequence of
names. -/
def spoiltSection (d : Datum) : Bool :=
  match key? d with
  | some title => isScalar (rest d) || isReserved title
  | none => true

theorem setSections_decodes (e : AutodocEntry) (ds : List Datum) :
    (setSections e ds).DecodesUnless (ds.any spoiltSection) := by
  induction ds generalizing e with
  | nil => exact decodesUnless_ok e
  | cons d ds ih =>
    unfold setSections
    rw [List.any_cons, spoiltSection]
    cases key? d with
    | none => exact decodesUnless_faulty _
    | some title =>
      dsimp only
      rw [Bool.or_assoc]
      exact (names_decodes (rest d)).bind fun ss => (setSection_decodes e title ss).bind ih

def spoiltArgs (props : Datum) : Bool :=
  match (labelled? props "args").bind second? with
  | some sections =>
    match parts sections with
    | .ok ds => ds.any spoiltSection
    | .error _ => true
  | none => false

theorem withArgs_decodes (e : AutodocEntry) (props : Datum) :
    (withArgs e props).DecodesUnless (spoiltArgs props) := by
  unfold withArgs spoiltArgs
  cases (labelled? props "args").bind second? with
  | none => exact decodesUnless_ok e
  | some sections =>
    dsimp only [partsOf]
    cases parts sections with
    | ok ds => exact setSections_decodes e ds
    | error f => exact decodesUnless_faulty f

/-- The properties of an entry. -/
def props? (d : Datum) : Option Datum :=
  match d.elements? with
  | some (_ :: props) => some (.list props)
  | _ => none

/-- Entries are decoded in order; what follows one that is no entry is not seen. -/
def spoiltEntries : List Datum → Bool
  | [] => false
  | d :: more =>
    match props? d with
    | some props => spoiltArgs props || spoiltEntries more
    | none => false

theorem autodocEntry_decodes {d name : Datum} {items : List Datum}
    (h : d.elements? = some (name :: items)) :
    (autodocEntry d).DecodesUnless (spoiltArgs (.list items)) := by
  unfold autodocEntry
  rw [h]
  exact (withArgs_decodes _ _).map _

theorem autodocEntries_faultsExactly (ds : List Datum) :
    (autodocEntries ds).FaultsExactly (spoiltEntries ds) := by
  induction ds with
  | nil => exact (decodesUnless_ok []).faultsExactly
  | cons d ds ih =>
    unfold autodocEntries spoiltEntries props?
    rcases h : d.elements? with _ | _ | ⟨name, items⟩
    · unfold autodocEntry; rw [h]; exact faultsExactly_protocol rfl
    · unfold autodocEntry; rw [h]; exact faultsExactly_protocol rfl
    · exact (autodocEntry_decodes h).bind_faultsExactly fun e => ih.map _

def spoiltAutodoc (d : Datum) : Bool := d.elements?.any spoiltEntries

theorem autodoc_faultsExactly (text : String) :
    (autodoc text).FaultsExactly (isSpoilt spoiltAutodoc text) := by
  refine parse_bind (fun d => ?_) text
  unfold spoiltAutodoc
  cases d.elements? with
  | some items => exact autodocEntries_faultsExactly items
  | none => exact faultsExactly_protocol rfl

/-- A documented signature whose parameters cannot be decoded. -/
def spoiltDocumentation (d : Datum) : Bool :=
  match labelled? d "signature", labelled? d "docstring" with
  | some sig, some _ => (props? (rest sig)).any spoiltArgs
  | _, _ => false

theorem signature?_decodes (d : Datum) :
    (signature? d).DecodesUnless ((props? d).any spoiltArgs) := by
  unfold signature? props?
  rcases h : d.elements? with _ | _ | ⟨name, items⟩
  · exact decodesUnless_ok none
  · exact decodesUnless_ok none
  · exact (autodocEntry_decodes h).map some

theorem labelled?_of_isEmptyText {d : Datum} (h : isEmptyText d = true) (key : String) :
    labelled? d key = none := by
  cases d with
  | str => rfl
  | bool | int | real | char | sym | list | vector | improper => cases h
  | object kind => exact kind.elim

theorem symbolDocumentation_faultsExactly (text : String) :
    (symbolDocumentation text).FaultsExactly (isSpoilt spoiltDocumentation text) := by
  refine parse_bind (fun d => ?_) text
  unfold spoiltDocumentation
  by_cases hempty : isEmptyText d = true
  · rw [if_pos hempty, labelled?_of_isEmptyText hempty]
    exact (decodesUnless_ok none).faultsExactly
  rw [if_neg hempty]
  cases labelled? d "signature" with
  | none => exact faultsExactly_protocol rfl
  | some sig =>
    cases labelled? d "docstring" with
    | none => exact faultsExactly_protocol rfl
    | some doc => exact ((signature?_decodes (rest sig)).map _).faultsExactly

end Decode

end LiveScheme
