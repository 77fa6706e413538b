import LiveScheme.Buffer.Index
import LiveScheme.Proofs.Buffer.Pieces
import Mathlib

/-!
# Balanced buffers

The index of a buffer counts brackets and looks for strings that are not closed. A reader opens and
closes a construct with the same brackets, one for one, and has nothing open when it has read the
whole text; and every string that it reads is closed. The index of a text that can be read therefore
reports neither a missing nor a spare bracket and no open string.
-/

namespace LiveScheme

open Text Token

namespace Scanner

/-- By how many open forms a token changes the balance of a buffer. -/
def delta (text : List Char) : Int :=
  let here : Span := ⟨text, 0, 0⟩
  if here.isOpener then 1 else if here.isCloser then -1 else 0

/-- A string without its closing quote. -/
def isOpenText (text : List Char) : Bool :=
  let here : Span := ⟨text, 0, 0⟩
  here.isText && !here.isClosedText

theorem mark_of_delta {text : List Char} (h : delta text ≠ 0) :
    text = ['('] ∨ text = ['#', '('] ∨ text = ['['] ∨ text = [')'] ∨ text = [']'] := by
  by_contra hnone
  simp_all [delta, Span.isOpener, Span.isCloser]

theorem isOpenText_of_delta {text : List Char} (h : delta text ≠ 0) : isOpenText text = false := by
  rcases mark_of_delta h with rfl | rfl | rfl | rfl | rfl <;> rfl

end Scanner

namespace Buffer.Index

open Scanner

/-- A definition changes neither the balance nor what is known of strings. -/
theorem noteDefinition_eq (text : List Char) (idx : Index) (ts : List Span) :
    ∃ symbols modules, noteDefinition text idx ts = { idx with symbols, modules } := by
  unfold noteDefinition
  split
  · exact ⟨_, _, rfl⟩
  split
  · exact ⟨_, _, rfl⟩
  dsimp only
  split
  · exact ⟨_, _, rfl⟩
  split
  · exact ⟨_, _, rfl⟩
  split
  · exact ⟨_, _, rfl⟩
  · exact ⟨_, _, rfl⟩

theorem build_eq (text : List Char) (idx : Index) (ts : List Span) :
    (build text idx ts).balance = idx.balance + ((ts.map (·.text)).map delta).sum ∧
      (build text idx ts).unmatchedQuote =
        (idx.unmatchedQuote || (ts.map (·.text)).any isOpenText) := by
  induction ts generalizing idx with
  | nil => simp [build]
  | cons t ts ih =>
    have hbalance := fun idx => (ih idx).1
    have hquote := fun idx => (ih idx).2
    rw [build]
    simp only [hbalance, hquote, List.map_cons, List.sum_cons, List.any_cons]
    by_cases hopen : t.isOpener = true
    · have hdelta : delta t.text = 1 := if_pos hopen
      have hclosed : isOpenText t.text = false := isOpenText_of_delta (by omega)
      obtain ⟨symbols, modules, hdefinition⟩ :=
        noteDefinition_eq text { idx with balance := idx.balance + 1 } ts
      simp only [hopen, if_true, hdefinition, hdelta, hclosed, Bool.false_or, and_true]
      omega
    by_cases hclose : t.isCloser = true
    · have hdelta : delta t.text = -1 := (if_neg hopen).trans (if_pos hclose)
      have hclosed : isOpenText t.text = false := isOpenText_of_delta (by omega)
      simp only [hopen, hclose, if_true, Bool.false_eq_true, if_false, hdelta, hclosed,
        Bool.false_or, and_true]
      omega
    · have hdelta : delta t.text = 0 := (if_neg hopen).trans (if_neg hclose)
      have htext : isOpenText t.text = (t.isText && !t.isClosedText) := rfl
      simp only [hopen, hclose, Bool.false_eq_true, if_false, hdelta, htext]
      by_cases hunclosed : (t.isText && !t.isClosedText) = true <;> simp [hunclosed]

end Buffer.Index

/-- By how many open constructs a token changes what is being read. -/
def TokenKind.delta : TokenKind → Int
  | .vectorOpen | .listOpen => 1
  | .close => -1
  | _ => 0

namespace Token

open Scanner

/-- A token is to a buffer what it is to a reader, and no string that is left open. -/
structure Counts (t : Token) : Prop where
  delta : delta t.text = t.kind.delta
  closed : isOpenText t.text = false

theorem counts_of_isWordChar {kind : TokenKind} {w : List Char} (hk : kind.delta = 0)
    (hw : ∀ c ∈ w, isWordChar c = true) : Counts ⟨kind, w⟩ := by
  have hne : ∀ c, isWordChar c = false → c ∉ w := by
    intro c hc hmem
    rw [hw c hmem] at hc
    cases hc
  have hquote := hne '\x22' (by decide)
  have hbrackets : ∀ c ∈ ['(', '[', ')', ']'], c ∉ w := by
    intro c hc
    apply hne
    revert c
    decide
  constructor
  · rw [hk]
    by_contra hdelta
    rcases mark_of_delta hdelta with rfl | rfl | rfl | rfl | rfl <;> simp at hbrackets
  · cases w with
    | nil => rfl
    | cons c w =>
      have hc : c ≠ '\x22' := by
        rintro rfl
        exact hquote List.mem_cons_self
      simp [isOpenText, Span.isText, hc]

theorem counts_of_scanWord {c : Char} {rest left : List Char} {t : Token}
    (hc : isWordChar c = true) (h : scanWord c rest = .token t left) : Counts t := by
  simp only [scanWord] at h
  split at h
  · next hbool =>
    cases h
    exact counts_of_isWordChar rfl (isWordChar_of_mem_boolWords (by simpa using hbool))
  · cases h
    refine counts_of_isWordChar rfl (List.forall_mem_cons.mpr ⟨hc, fun d hd => ?_⟩)
    exact List.mem_takeWhile_imp hd

theorem counts_of_begins {c : Char} {rest left : List Char} {t : Token}
    (h : Begins c rest t left) : Counts t := by
  cases h with
  | datumComment => exact ⟨rfl, rfl⟩
  | vectorOpen => exact ⟨rfl, rfl⟩
  | char h =>
    cases h
    exact ⟨rfl, rfl⟩
  | quote _ hc => rcases hc with rfl | rfl <;> exact ⟨rfl, rfl⟩
  | unquoteAt => exact ⟨rfl, rfl⟩
  | unquote => exact ⟨rfl, rfl⟩
  | listOpen _ hc => rcases hc with rfl | rfl <;> exact ⟨rfl, rfl⟩
  | close _ hc => rcases hc with rfl | rfl <;> exact ⟨rfl, rfl⟩
  | text h =>
    obtain ⟨htext, -, hclosed⟩ := scanText_eq h
    obtain ⟨kind, text⟩ := t
    have hkind : kind = .text := (scanText_token h).1
    subst hkind
    simp only at htext
    subst htext
    refine ⟨rfl, ?_⟩
    simp [isOpenText, Span.isClosedText, hclosed]
  | word hc _ h => exact counts_of_scanWord hc h

end Token

namespace Lexed

open Token

theorem counts_of_mem_tokens {total : Nat} {cs : List Char} {t : Token}
    (ht : t ∈ (scanFrom total cs).tokens) : Counts t := by
  obtain ⟨rest, hscan, -, hhead⟩ := scan_of_mem_tokens ht
  cases hcs : t.text ++ rest with
  | nil =>
    rw [hcs] at hscan
    cases hscan
  | cons c more =>
    have hc : isBlank c = false := hhead c (by rw [hcs]; rfl)
    rw [hcs] at hscan
    exact counts_of_begins (begins_of_scan hc hscan)

end Lexed

namespace Datum.Reading

/-- The number of constructs that wait for a closing bracket. -/
def depth : List Open → Int
  | [] => 0
  | .list _ :: stack | .vector _ :: stack | .dotted _ :: stack | .sealed _ _ :: stack =>
    depth stack + 1
  | .quoted _ :: stack | .ignored :: stack | .wanted :: stack => depth stack

theorem deliver_depth (done : List Datum) (d : Datum) (stack : List Open) :
    depth (deliver done d stack).stack = depth stack := by
  fun_induction deliver done d stack <;> simp_all [depth]

theorem close_depth {r r' : Reading} {text : List Char} (h : close r text = .ok r') :
    depth r'.stack = depth r.stack - 1 := by
  unfold close at h
  split at h
  · next heq => cases h; simp [deliver_depth, heq, depth]
  · next heq => cases h; simp [deliver_depth, heq, depth]
  · next heq => cases h; simp [deliver_depth, heq, depth]
  · cases h

theorem dot_depth {r r' : Reading} (h : dot r = .ok r') : depth r'.stack = depth r.stack := by
  unfold dot at h
  split at h
  · cases h
  · next heq => cases h; simp [heq, depth]
  · cases h

theorem delta_of_opened? {t : Token} {o : Open} (h : t.opened? = some o) (stack : List Open) :
    depth (o :: stack) = depth stack + t.kind.delta := by
  obtain ⟨kind, text⟩ := t
  cases kind <;> cases h <;> simp [depth, TokenKind.delta]

theorem delta_of_denoted? {t : Token} {x : Except ReadError Datum} (h : t.denoted? = some x) :
    t.kind.delta = 0 := by
  obtain ⟨kind, text⟩ := t
  cases kind <;> first | rfl | cases h

theorem take_depth {r r' : Reading} {t : Token} (h : take r t = .ok r') :
    depth r'.stack = depth r.stack + t.kind.delta := by
  cases taking t with
  | opens o ho htake =>
    rw [htake] at h
    cases h
    exact delta_of_opened? ho r.stack
  | denotes x hx htake =>
    rw [htake] at h
    cases x with
    | error e => cases h
    | ok d =>
      cases h
      rw [deliver_depth, delta_of_denoted? hx, add_zero]
  | closes hclose htake =>
    rw [hclose]
    exact close_depth (htake r ▸ h)
  | dots hdot htake =>
    rw [hdot]
    exact (dot_depth (htake r ▸ h)).trans (add_zero _).symm

theorem step_depth {r r' : Reading} {t : Token} (h : step r t = .ok r') :
    depth r'.stack = depth r.stack + t.kind.delta := by
  unfold step at h
  split at h
  · split at h
    · next hk =>
      rw [hk]
      exact close_depth h
    · cases h
  · exact take_depth h

theorem run_depth {r r' : Reading} {ts : List Token} (h : run r ts = .ok r') :
    depth r'.stack = depth r.stack + (ts.map (·.kind.delta)).sum := by
  induction ts generalizing r with
  | nil =>
    cases h
    simp
  | cons t ts ih =>
    obtain ⟨s, hstep, hrun⟩ := step_of_run_cons h
    rw [ih hrun, step_depth hstep, List.map_cons, List.sum_cons]
    omega

end Datum.Reading

namespace Buffer.Index

open Scanner

/-- The brackets of a text that is read close what they open. -/
theorem balance_of_readAll {text : List Char} {forms : List Datum}
    (h : Datum.readAll (String.ofList text) = .ok forms) (hflat : Lexed.nests text = false) :
    (ofText text).balance = 0 ∧ (ofText text).unmatchedQuote = false := by
  obtain ⟨done, hrun, hend, -⟩ := Datum.readAll_eq_ok h
  rw [String.toList_ofList] at hrun hend
  have hcounts : ∀ t ∈ (Lexed.ofText text).tokens, t.Counts := fun t ht =>
    Lexed.counts_of_mem_tokens ht
  have hdepth := Datum.Reading.run_depth hrun
  obtain ⟨hbalance, hquote⟩ := build_eq text empty (tokens text)
  have htexts : (tokens text).map (·.text) = (Lexed.ofText text).tokens.map (·.text) := by
    rw [map_text_tokens]
    exact (Lexed.map_text_scanFrom hend hflat).symm
  have hdelta : ((Lexed.ofText text).tokens.map (·.text)).map delta =
      (Lexed.ofText text).tokens.map (·.kind.delta) := by
    rw [List.map_map]
    exact List.map_congr_left fun t ht => (hcounts t ht).delta
  have hclosed : ((Lexed.ofText text).tokens.map (·.text)).any isOpenText = false := by
    simp only [List.any_eq_false, List.mem_map]
    rintro w ⟨t, ht, rfl⟩
    simp [(hcounts t ht).closed]
  rw [htexts, hdelta] at hbalance
  rw [htexts, hclosed] at hquote
  have hsum : ((Lexed.ofText text).tokens.map (·.kind.delta)).sum = 0 := by
    simpa [Datum.Reading.start, Datum.Reading.depth] using hdepth.symm
  rw [hsum] at hbalance
  exact ⟨hbalance, hquote⟩

end Buffer.Index

namespace Buffer

/-- A buffer has the tokens that are read, and the index of a text that can be read finds nothing
amiss, as long as no block comment opens inside another one. -/
theorem scans_as_read (text : List Char) (hflat : Lexed.nests text = false) :
    ((Lexed.ofText text).failure = none →
      (Scanner.tokens text).map (·.text) = (Lexed.ofText text).tokens.map (·.text)) ∧
    ∀ forms, Datum.readAll (String.ofList text) = .ok forms →
      (Index.ofText text).balance = 0 ∧ (Index.ofText text).unmatchedQuote = false := by
  constructor
  · intro hend
    rw [Scanner.map_text_tokens]
    exact (Lexed.map_text_scanFrom hend hflat).symm
  · intro forms hread
    exact Index.balance_of_readAll hread hflat

/-- A bracket in a comment, in a string and as a character, and a datum comment. -/
def commented : List Char := "#| ( |# (f \"(\" #\\( #;x [y]) ; (".toList

theorem scans_as_read_commented :
    Lexed.nests commented = false ∧ (Lexed.ofText commented).failure = none ∧
      (Scanner.tokens commented).map (·.text) = (Lexed.ofText commented).tokens.map (·.text) ∧
      (Index.ofText commented).balance = 0 ∧ (Index.ofText commented).unmatchedQuote = false := by
  have hflat : Lexed.nests commented = false := by cbv
  have hend : (Lexed.ofText commented).failure = none := by cbv
  have hread : Datum.readAll (String.ofList commented) =
      .ok [.list [.sym "f", .str "(", .char '(', .list [.sym "y"]]] := by cbv
  obtain ⟨htexts, hindex⟩ := scans_as_read commented hflat
  exact ⟨hflat, hend, htexts hend, hindex _ hread⟩

/-- A comment in a comment ends at the first closing mark for a buffer. -/
example : Datum.readAll "#| #| |# ( |#" = .ok [] ∧
    (Index.ofText "#| #| |# ( |#".toList).balance = 1 := by
  constructor <;> cbv

end Buffer

end LiveScheme
