import LiveScheme.Proofs.Reading.Boundary
import Mathlib

/-!
# Spacing between tokens

Blanks, line comments and block comments between tokens are passed over, however they are mixed and
however deep the block comments nest. A token that stands for itself in front of one blank therefore
stands for itself in front of any such spacing, and so does a whole list of tokens.
-/

namespace LiveScheme

open Text

namespace Token

/-- What stands between the two ends of a block comment: no number signs and no bars, but for those
that begin and end block comments inside. -/
inductive BlockBody : List Char → Prop
  | nil : BlockBody []
  | plain {c : Char} {body : List Char} : c ≠ '#' → c ≠ '|' → BlockBody body →
    BlockBody (c :: body)
  | nested {inner body : List Char} : BlockBody inner → BlockBody body →
    BlockBody ('#' :: '|' :: (inner ++ '|' :: '#' :: body))

/-- Any mixture of blanks, line comments that are ended by their line, and block comments. -/
inductive Spacing : List Char → Prop
  | nil : Spacing []
  | blank {c : Char} {rest : List Char} : isBlank c = true → Spacing rest → Spacing (c :: rest)
  | line {body rest : List Char} : '\n' ∉ body → Spacing rest →
    Spacing (';' :: (body ++ '\n' :: rest))
  | block {body rest : List Char} : BlockBody body → Spacing rest →
    Spacing ('#' :: '|' :: (body ++ '|' :: '#' :: rest))

/-- Spacing that begins with a blank, so that it ends what stands in front of it. -/
inductive Separates : List Char → Prop
  | mk {c : Char} {rest : List Char} : isBlank c = true → Spacing rest → Separates (c :: rest)

theorem Separates.spacing {cs : List Char} (h : Separates cs) : Spacing cs := by
  obtain ⟨hc, hrest⟩ := h
  exact .blank hc hrest

theorem Separates.atGap {cs : List Char} (h : Separates cs) (rest : List Char) :
    AtGap (cs ++ rest) := by
  obtain ⟨hc, -⟩ := h
  exact atGap_cons (by simp [isGap, hc]) _

/-- The body of a block comment leaves the depth as it was. -/
theorem BlockBody.afterBlock_append {body : List Char} (h : BlockBody body) (depth : Nat)
    (rest : List Char) : afterBlock depth (body ++ rest) = afterBlock depth rest := by
  induction h generalizing depth rest with
  | nil => rfl
  | plain hhash hbar _ ih =>
    rw [List.cons_append, afterBlock]
    · exact ih depth rest
    · exact fun _ heq => absurd heq hhash
    · exact fun _ heq => absurd heq hbar
  | @nested inner body _ _ ihinner ihbody =>
    calc
      _ = afterBlock (depth + 1) (inner ++ '|' :: '#' :: (body ++ rest)) := by simp [afterBlock]
      _ = afterBlock (depth + 1) ('|' :: '#' :: (body ++ rest)) := ihinner (depth + 1) _
      _ = afterBlock depth (body ++ rest) := by simp [afterBlock]
      _ = _ := ihbody depth rest

theorem scan_block {body : List Char} (h : BlockBody body) (rest : List Char) :
    scan ('#' :: '|' :: (body ++ '|' :: '#' :: rest)) = .skipped rest := by
  have hafter : afterBlock 0 (body ++ '|' :: '#' :: rest) = some rest := by
    rw [h.afterBlock_append]
    rfl
  simp [scan, scanHash, hafter]

/-- A token in front of one gap is the same in front of every other one. -/
theorem scan_gap_of_scan {t : Token} {rest gap : List Char}
    (h : scan (t.text ++ rest) = .token t rest) (hrest : AtGap rest)
    (hbare : t.text ≠ ['#', '\\']) (hgap : AtGap gap) : scan (t.text ++ gap) = .token t gap := by
  have hsome : (scan t.text).rest?.isSome = true := by
    have hrest : (scan (t.text ++ rest)).rest? = some ([] ++ rest) := by
      rw [h]
      rfl
    rcases scan_cut hrest with hcut | ⟨-, hbool⟩
    · rw [h] at hcut
      cases hfront : scan t.text with
      | token | skipped => rfl
      | _ =>
        rw [hfront] at hcut
        cases hcut
    · rw [scan_boolWords (by simpa using hbool)]
      rfl
  have hextend : ∀ {gap}, AtGap gap → scan (t.text ++ gap) = (scan t.text).extend gap := by
    intro gap hgap
    cases htext : t.text with
    | nil =>
      rw [htext] at hsome
      cases hsome
    | cons c cs =>
      rw [htext] at h hsome hbare
      refine scan_extend (.inr hgap) ?_ hbare hsome
      rintro rfl
      cases h
  -- The token by itself, which both texts extend.
  have hfront : scan t.text = .token t [] := by
    rw [hextend hrest] at h
    cases hself : scan t.text with
    | token t' after =>
      rw [hself, Lexeme.extend] at h
      obtain ⟨rfl, hafter⟩ := Lexeme.token.inj h
      rw [List.append_left_eq_self.mp hafter]
    | _ =>
      rw [hself] at h
      cases h
  rw [hextend hgap, hfront]
  rfl

end Token

namespace Lexed

/-- Spacing adds nothing to what is scanned behind it. -/
theorem scanFrom_spacing {total : Nat} {cs rest : List Char} (h : Token.Spacing cs)
    (hok : (scanFrom total rest).failure = none) :
    scanFrom total (cs ++ rest) = scanFrom total rest := by
  have hblank : ∀ {c more}, isBlank c = true → (scanFrom total more).failure = none →
      scanFrom total (c :: more) = scanFrom total more := fun {c more} hc hmore =>
    scanFrom_of_trimStart (by simp [trimStart, hc]) hmore
  induction h with
  | nil => rfl
  | blank hc _ ih =>
    rw [List.cons_append, hblank hc (by rw [ih]; exact hok), ih]
  | @line body more hbody _ ih =>
    have hscan : Token.scan (trimStart (';' :: (body ++ '\n' :: (more ++ rest)))) =
        .skipped ('\n' :: (more ++ rest)) := scan_comment_append hbody (by simp)
    simp only [List.cons_append, List.append_assoc]
    rw [scanFrom_of_skipped hscan, hblank (by decide) (by rw [ih]; exact hok), ih]
  | @block body more hbody _ ih =>
    have hscan : Token.scan (trimStart ('#' :: '|' :: (body ++ '|' :: '#' :: (more ++ rest)))) =
        .skipped (more ++ rest) := Token.scan_block hbody _
    simp only [List.cons_append, List.append_assoc]
    rw [scanFrom_of_skipped hscan, ih]

/-- A token that is scanned in front of one blank is scanned in front of every gap. -/
theorem scan_of_ofText {t : Token} (h : ofText (t.text ++ [' ']) = ⟨[t], none⟩) {gap : List Char}
    (hgap : Token.AtGap gap) :
    Token.scan (trimStart (t.text ++ gap)) = .token t gap := by
  have hmem : t ∈ (scanFrom (t.text ++ [' ']).length (t.text ++ [' '])).tokens := by
    rw [ofText] at h
    rw [h]
    exact List.mem_singleton_self t
  obtain ⟨rest, hscan, hsuffix, hhead⟩ := scan_of_mem_tokens hmem
  have hrest : Token.AtGap rest := by
    cases rest with
    | nil => exact fun c hc => by cases hc
    | cons c more =>
      have hlength : (t.text ++ c :: more).length = (t.text ++ [' ']).length := by
        have hle := hsuffix.length_le
        simp only [List.length_append, List.length_cons, List.length_nil] at hle ⊢
        omega
      have heq := hsuffix.eq_of_length hlength
      rw [List.append_cancel_left heq]
      exact Token.atGap_cons (by decide) []
  have hbare : t.text ≠ ['#', '\\'] := fun heq => by
    have hchar : Token.scan (trimStart (['#', '\\'] ++ [' '])) =
        .token ⟨.char, ['#', '\\', ' ']⟩ [] := rfl
    rw [heq, ofText, scanFrom_of_token hchar, scanFrom_blank (List.forall_mem_nil _)] at h
    cases h
    cases heq
  have hgapped := Token.scan_gap_of_scan hscan hrest hbare hgap
  cases htext : t.text with
  | nil =>
    have hlength := Token.scan_rest (congrArg Token.Lexeme.rest? hscan)
    rw [htext, List.nil_append] at hlength
    exact absurd hlength (Nat.lt_irrefl _)
  | cons c cs =>
    have hc : isBlank c = false := hhead c (by rw [htext]; rfl)
    rw [htext] at hgapped
    rw [List.cons_append, ← List.nil_append (c :: _),
      trimStart_append_cons (List.forall_mem_nil _) hc]
    exact hgapped

/-- The layout of a text adds nothing to its tokens: each stands for itself, and whatever blanks and
comments are put between them, they are what is scanned. -/
theorem ofText_spaced {lead : List Char} {items : List (Token × List Char)}
    (hlead : Token.Separates lead)
    (hitems : ∀ p ∈ items, ofText (p.1.text ++ [' ']) = ⟨[p.1], none⟩ ∧ Token.Separates p.2) :
    ofText (lead ++ items.flatMap fun p => p.1.text ++ p.2) = ⟨items.map Prod.fst, none⟩ := by
  have hscan : ∀ total, scanFrom total (items.flatMap fun p => p.1.text ++ p.2) =
      ⟨items.map Prod.fst, none⟩ := by
    intro total
    induction items with
    | nil => exact scanFrom_blank (List.forall_mem_nil _)
    | cons p rest ih =>
      obtain ⟨⟨htoken, hsep⟩, hrest⟩ := List.forall_mem_cons.mp hitems
      have hmore := ih hrest
      have hfirst := scan_of_ofText htoken (hsep.atGap (rest.flatMap fun p => p.1.text ++ p.2))
      rw [List.flatMap_cons, List.append_assoc, scanFrom_of_token hfirst,
        scanFrom_spacing hsep.spacing (by rw [hmore]), hmore]
      rfl
  rw [ofText, scanFrom_spacing hlead.spacing (by rw [hscan]), hscan]

/-- A quoted list of a string and a truth value, with a comment in a comment. -/
def spacedItems : List (Token × List Char) := [
  (⟨.quote, ['\x27']⟩, [' ']),
  (Token.listOpen, " #|a#|b|#|#".toList),
  (⟨.text, ['\x22', ';', '\x22']⟩, "\n;c\n".toList),
  (⟨.bool, ['#', 't']⟩, ['\t']),
  (Token.close, ['\n'])]

theorem separates_spacedItems : ∀ p ∈ spacedItems, Token.Separates p.2 := by
  have hcomment : Token.BlockBody ['a', '#', '|', 'b', '|', '#'] :=
    .plain (by decide) (by decide) (.nested (.plain (by decide) (by decide) .nil) .nil)
  have hblank : ∀ c, isBlank c = true → Token.Separates [c] := fun _ hc => .mk hc .nil
  intro p hp
  simp only [spacedItems, List.mem_cons, List.not_mem_nil, or_false] at hp
  rcases hp with rfl | rfl | rfl | rfl | rfl
  · exact hblank _ (by decide)
  · exact .mk (by decide) (.block hcomment .nil)
  · exact .mk (by decide) (.line (by decide : '\n' ∉ ['c']) .nil)
  · exact hblank _ (by decide)
  · exact hblank _ (by decide)

theorem ofText_spaced_comments :
    (∀ p ∈ spacedItems, ofText (p.1.text ++ [' ']) = ⟨[p.1], none⟩ ∧ Token.Separates p.2) ∧
      ofText (" ' ( #|a#|b|#|#\x22;\x22\n;c\n#t\t)\n".toList) =
        ⟨spacedItems.map Prod.fst, none⟩ := by
  have hitems : ∀ p ∈ spacedItems,
      ofText (p.1.text ++ [' ']) = ⟨[p.1], none⟩ ∧ Token.Separates p.2 := by
    refine fun p hp => ⟨?_, separates_spacedItems p hp⟩
    simp only [spacedItems, List.mem_cons, List.not_mem_nil, or_false] at hp
    rcases hp with rfl | rfl | rfl | rfl | rfl <;> cbv
  have hlead : Token.Separates [' '] := .mk (by decide) .nil
  exact ⟨hitems, ofText_spaced hlead hitems⟩

end Lexed

end LiveScheme
