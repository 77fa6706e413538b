import LiveScheme.Buffer.Index
import LiveScheme.Proofs.Buffer.Spans
import Mathlib.Data.List.Basic

/-!
# Brackets of buffers

Two ways to see which forms are open. One goes through the tokens in front of an offset and keeps a
stack of the forms that have opened and not closed. The other starts at one opener, in the text from
there on, and counts until as many forms have closed as have opened. They agree on every text: the
forms on the stack are those whose opener lies in front of the offset and whose closer does not.
Spare closers only close what is open, and every closer closes every opener.
-/

namespace LiveScheme.Buffer

open Scanner

variable {text : List Char} {depth start offset : Nat} {t c : Span} {ts us : List Span}

@[simp] theorem dropTo_natCast (text : List Char) (n : Nat) : dropTo text n = text.drop n := by
  rw [dropTo, if_neg (by omega), Int.toNat_natCast]

theorem closingStart_opener (depth : Nat) (h : t.isOpener = true) (ts : List Span) :
    closingStart depth (t :: ts) = closingStart (depth + 1) ts := by
  rw [closingStart, if_pos h]

theorem closingStart_shift (n : Nat) :
    closingStart depth (ts.map (Span.shift n)) = (closingStart depth ts).map (n + ·) := by
  induction ts generalizing depth with
  | nil => rfl
  | cons t ts ih =>
    simp only [List.map_cons, closingStart, Span.isOpener_shift, Span.isCloser_shift,
      Span.start_shift, ih]
    split
    · rfl
    split
    · split <;> rfl
    · rfl

theorem exists_of_closingStart (h : closingStart depth ts = some start) :
    ∃ c ∈ ts, c.start = start := by
  induction ts generalizing depth with
  | nil => cases h
  | cons t ts ih =>
    have hlater : ∀ {depth}, closingStart depth ts = some start →
        ∃ c ∈ t :: ts, c.start = start := fun h =>
      (ih h).imp fun c hc => ⟨List.mem_cons_of_mem _ hc.1, hc.2⟩
    unfold closingStart at h
    split at h
    · exact hlater h
    split at h
    · split at h
      · exact ⟨t, List.mem_cons_self, Option.some.inj h⟩
      · exact hlater h
    · exact hlater h

/-- What does not close in front of some tokens closes among them or never. -/
theorem closingStart_append (depth : Nat) (ts us : List Span) : ∃ left,
    closingStart depth (ts ++ us) = (closingStart depth ts).or (closingStart left us) := by
  induction ts generalizing depth with
  | nil => exact ⟨depth, rfl⟩
  | cons t ts ih =>
    rw [List.cons_append, closingStart, closingStart]
    split
    · exact ih _
    split
    · split
      · exact ⟨0, rfl⟩
      · exact ih _
    · exact ih _

/-- A form closes where the tokens of the whole text say. -/
theorem matchingClose_eq {before after : List Span} (h : tokens text = before ++ t :: after)
    (ht : t.isOpener = true) : matchingClose text t.start =
      ((closingStart 1 after).map Int.ofNat).getD text.length := by
  have hclosing := congrArg (closingStart 0) (tokens_drop h)
  rw [closingStart_shift, closingStart_opener 0 ht, Nat.zero_add] at hclosing
  rw [matchingClose, dropTo_natCast, ← hclosing]
  cases closingStart 0 (tokens (text.drop t.start)) <;> simp

section Stack

/-- The forms that have opened among the tokens and not closed, outermost first. -/
def unclosed : List Span → List Span
  | [] => []
  | t :: ts =>
    if t.isOpener && (closingStart 1 ts).isNone then t :: unclosed ts else unclosed ts

/-- How many forms that opened before the tokens close among them, if there are enough. -/
def spare : List Span → Nat
  | [] => 0
  | t :: ts => if t.isOpener then spare ts - 1 else if t.isCloser then spare ts + 1 else spare ts

theorem closingStart_eq_none_iff (hdepth : 0 < depth) :
    closingStart depth ts = none ↔ spare ts < depth := by
  induction ts generalizing depth with
  | nil => simp [closingStart, spare, hdepth]
  | cons t ts ih =>
    rw [closingStart, spare]
    split
    · rw [ih (Nat.succ_pos _)]
      omega
    split
    · split
      · simp only [reduceCtorEq, false_iff]
        omega
      · rw [ih (by omega)]
        omega
    · exact ih hdepth

theorem map_start_nameInnermost (name : List Char) (stack : List OpenForm) :
    (nameInnermost name stack).map (·.start) = stack.map (·.start) := by
  cases stack with
  | nil => rfl
  | cons f rest =>
    rw [nameInnermost]
    split <;> rfl

theorem map_start_noteWord (word : List Char) (stack : List OpenForm) :
    (noteWord word stack).map (·.start) = stack.map (·.start) := by
  cases stack with
  | nil => rfl
  | cons f rest =>
    rw [noteWord]
    split
    · rfl
    · exact map_start_nameInnermost word (f :: rest)

/-- What one token does to the stack: an opener is pushed, a closer pops, and the rest only names
forms. -/
theorem map_start_noteToken (text : List Char) (stack : List OpenForm) (t : Span) :
    (noteToken text stack t).map (·.start) =
      if t.isOpener then t.start :: stack.map (·.start)
      else if t.isCloser then (stack.map (·.start)).drop 1
      else stack.map (·.start) := by
  unfold noteToken
  split
  · rw [List.map_cons]
    congr 1
    cases stack with
    | nil => rfl
    | cons f rest =>
      dsimp only
      split
      · exact map_start_nameInnermost _ _
      · rfl
  split
  · rw [List.map_drop]
  split
  · rfl
  · exact map_start_noteWord _ _

/-- What the tokens do to the stack: the forms that stay open are pushed, and the spare closers pop
from what was there. -/
theorem map_start_foldl (text : List Char) (ts : List Span) (stack : List OpenForm) :
    (ts.foldl (noteToken text) stack).map (·.start) =
      ((unclosed ts).map (·.start)).reverse ++ (stack.map (·.start)).drop (spare ts) := by
  induction ts generalizing stack with
  | nil => rfl
  | cons t ts ih =>
    rw [List.foldl_cons, ih, map_start_noteToken, unclosed, spare]
    by_cases hopen : t.isOpener = true
    · simp only [hopen, if_true, Bool.true_and, Option.isNone_iff_eq_none,
        closingStart_eq_none_iff Nat.one_pos]
      -- the new form stays, or the first spare closer pops it
      cases hspare : spare ts with
      | zero => simp
      | succ n => simp
    · simp only [hopen, Bool.false_eq_true, if_false, Bool.false_and]
      split
      · rw [List.drop_drop, Nat.add_comm]
      · rfl

theorem mem_unclosed : t ∈ unclosed ts ↔
    ∃ before after, ts = before ++ t :: after ∧ t.isOpener = true ∧
      closingStart 1 after = none := by
  induction ts with
  | nil => simp [unclosed]
  | cons u ts ih =>
    have hcons : t ∈ unclosed (u :: ts) ↔
        (t = u ∧ u.isOpener = true ∧ closingStart 1 ts = none) ∨ t ∈ unclosed ts := by
      rw [unclosed]
      split
      · next hu =>
        rw [Bool.and_eq_true, Option.isNone_iff_eq_none] at hu
        simp [hu]
      · next hu =>
        rw [Bool.and_eq_true, Option.isNone_iff_eq_none] at hu
        simp [hu]
    rw [hcons, ih]
    constructor
    · rintro (⟨rfl, hopen, hnone⟩ | ⟨before, after, rfl, hopen, hnone⟩)
      · exact ⟨[], ts, rfl, hopen, hnone⟩
      · exact ⟨u :: before, after, rfl, hopen, hnone⟩
    · rintro ⟨before, after, hts, hopen, hnone⟩
      cases before with
      | nil =>
        cases hts
        exact .inl ⟨rfl, hopen, hnone⟩
      | cons v before =>
        cases hts
        exact .inr ⟨before, after, rfl, hopen, hnone⟩

theorem unclosed_sublist (ts : List Span) : (unclosed ts).Sublist ts := by
  induction ts with
  | nil => exact .slnil
  | cons t ts ih =>
    rw [unclosed]
    split
    · exact ih.cons_cons t
    · exact ih.cons t

/-- The tokens in front of an offset. -/
def tokensBefore (text : List Char) (offset : Nat) : List Span :=
  (tokens text).takeWhile (·.start < offset)

theorem map_start_openForms (text : List Char) (offset : Nat) :
    (openForms text offset).reverse.map (·.start) =
      (unclosed (tokensBefore text offset)).map (·.start) := by
  rw [List.map_reverse, openForms, map_start_foldl]
  simp [tokensBefore]

/-- The tokens of a text are those in front of an offset and then the later ones. -/
theorem exists_tokens_eq (text : List Char) (offset : Nat) :
    ∃ later, tokens text = tokensBefore text offset ++ later ∧
      (∀ t ∈ tokensBefore text offset, t.start < offset) ∧ ∀ t ∈ later, offset ≤ t.start := by
  have hsplit : ∀ ts : List Span, ts.Pairwise (fun s t => s.start < t.start) →
      ∃ later, ts = ts.takeWhile (·.start < offset) ++ later ∧
        (∀ t ∈ ts.takeWhile (·.start < offset), t.start < offset) ∧
        ∀ t ∈ later, offset ≤ t.start := by
    intro ts hsorted
    induction ts with
    | nil => exact ⟨[], rfl, nofun, nofun⟩
    | cons t ts ih =>
      obtain ⟨hlater, hsorted⟩ := List.pairwise_cons.mp hsorted
      by_cases ht : t.start < offset
      · obtain ⟨later, hts, hbefore, hbeyond⟩ := ih hsorted
        rw [List.takeWhile_cons_of_pos (by simpa using ht)]
        exact ⟨later, congrArg (t :: ·) hts, List.forall_mem_cons.mpr ⟨ht, hbefore⟩, hbeyond⟩
      · rw [List.takeWhile_cons_of_neg (by simpa using ht)]
        refine ⟨t :: ts, rfl, nofun, List.forall_mem_cons.mpr ⟨Nat.le_of_not_lt ht, ?_⟩⟩
        exact fun u hu => Nat.le_trans (Nat.le_of_not_lt ht) (Nat.le_of_lt (hlater u hu))
  exact hsplit (tokens text) (pairwise_start_tokens text)

theorem mem_openForms_iff (hoffset : offset ≤ text.length) {p : Nat} :
    p ∈ (openForms text offset).reverse.map (·.start) ↔
      (∃ t ∈ tokens text, t.isOpener = true ∧ t.start = p) ∧ p < offset ∧
        (offset : Int) ≤ matchingClose text p := by
  obtain ⟨later, htokens, hbefore, hlater⟩ := exists_tokens_eq text offset
  have hwhole : ∀ {before t after}, tokensBefore text offset = before ++ t :: after →
      tokens text = before ++ t :: (after ++ later) := fun hts => by
    rw [htokens, hts, List.append_assoc, List.cons_append]
  rw [map_start_openForms, List.mem_map]
  constructor
  · rintro ⟨t, ht, rfl⟩
    obtain ⟨before, after, hts, hopen, hnone⟩ := mem_unclosed.mp ht
    have hmem : t ∈ tokensBefore text offset := by simp [hts]
    refine ⟨⟨t, by simp [hwhole hts], hopen, rfl⟩, hbefore t hmem, ?_⟩
    rw [matchingClose_eq (hwhole hts) hopen]
    cases hclosing : closingStart 1 (after ++ later) with
    | none => exact Int.ofNat_le.mpr hoffset
    | some close =>
      obtain ⟨left, happend⟩ := closingStart_append 1 after later
      rw [happend, hnone, Option.none_or] at hclosing
      obtain ⟨c, hc, rfl⟩ := exists_of_closingStart hclosing
      exact Int.ofNat_le.mpr (hlater c hc)
  · rintro ⟨⟨t, ht, hopen, rfl⟩, hlt, hle⟩
    have hmem : t ∈ tokensBefore text offset := by
      rw [htokens] at ht
      exact (List.mem_append.mp ht).resolve_right fun ht => absurd (hlater t ht) (by omega)
    obtain ⟨before, after, hts⟩ := List.append_of_mem hmem
    refine ⟨t, mem_unclosed.mpr ⟨before, after, hts, hopen, ?_⟩, rfl⟩
    cases hclosing : closingStart 1 after with
    | none => rfl
    | some close =>
      obtain ⟨left, happend⟩ := closingStart_append 1 after later
      rw [matchingClose_eq (hwhole hts) hopen, happend, hclosing, Option.some_or] at hle
      obtain ⟨c, hc, rfl⟩ := exists_of_closingStart hclosing
      have hbeyond := hbefore c (by simp [hts, hc])
      have hle : (offset : Int) ≤ c.start := hle
      omega

end Stack

section Counting

/-- As many forms close among the tokens as open. -/
def Balanced (ts : List Span) : Prop :=
  ts.countP (·.isOpener) = ts.countP (·.isCloser)

/-- The closer is the first one behind the tokens at which as many forms have closed as opened. -/
structure ClosesFirst (ts : List Span) (c : Span) : Prop where
  closer : c.isCloser = true
  balanced : Balanced (ts ++ [c])
  first : ∀ before d, before ++ [d] <+: ts → d.isCloser = true → ¬ Balanced (before ++ [d])

/-- The count meets the first closer that makes the tokens balanced, or there is none. The forms
that are open are those that the tokens seen so far have opened and not closed. -/
theorem closingStart_cases (seen : List Span) (hdepth : 0 < depth)
    (hseen : seen.countP (·.isOpener) = seen.countP (·.isCloser) + depth)
    (hfirst : ∀ before d, before ++ [d] <+: seen → d.isCloser = true →
      ¬ Balanced (before ++ [d])) (ts : List Span) :
    (∃ between c rest, ts = between ++ c :: rest ∧ ClosesFirst (seen ++ between) c ∧
      closingStart depth ts = some c.start) ∨
    (∀ between c rest, ts = between ++ c :: rest → ¬ ClosesFirst (seen ++ between) c) ∧
      closingStart depth ts = none := by
  induction ts generalizing seen depth with
  | nil => exact .inr ⟨fun between c rest h => by simp at h, rfl⟩
  | cons t ts ih =>
    by_cases hlast : t.isCloser = true ∧ depth = 1
    · -- everything that was open is closed here
      obtain ⟨hclose, rfl⟩ := hlast
      have hopen : t.isOpener = false :=
        Bool.eq_false_iff.mpr fun h => by simp [Span.not_isCloser_of_isOpener h] at hclose
      refine .inl ⟨[], t, ts, rfl, ⟨hclose, ?_, ?_⟩, ?_⟩
      · simp [Balanced, hopen, hclose, hseen]
      · simpa using hfirst
      · simp [closingStart, hopen, hclose]
    · have hstep : ∃ d, 0 < d ∧ closingStart depth (t :: ts) = closingStart d ts ∧
          (seen ++ [t]).countP (·.isOpener) = (seen ++ [t]).countP (·.isCloser) + d := by
        by_cases hopen : t.isOpener = true
        · refine ⟨depth + 1, by omega, closingStart_opener depth hopen ts, ?_⟩
          simp only [List.countP_append, List.countP_singleton, hopen,
            Span.not_isCloser_of_isOpener hopen, hseen, if_true, Bool.false_eq_true, if_false]
          omega
        by_cases hclose : t.isCloser = true
        · have hmore : ¬ depth ≤ 1 := fun h => hlast ⟨hclose, by omega⟩
          refine ⟨depth - 1, by omega, by simp [closingStart, hopen, hclose, hmore], ?_⟩
          simp only [List.countP_append, List.countP_singleton, hopen, hclose, hseen, if_true,
            Bool.false_eq_true, if_false]
          omega
        · exact ⟨depth, hdepth, by simp [closingStart, hopen, hclose],
            by simp [hopen, hclose, hseen]⟩
      obtain ⟨d, hd, hcount, hseen'⟩ := hstep
      have hopen : ¬ Balanced (seen ++ [t]) := fun h => by
        rw [Balanced] at h
        omega
      have hfirst' : ∀ before e, before ++ [e] <+: seen ++ [t] → e.isCloser = true →
          ¬ Balanced (before ++ [e]) := by
        intro before e hbefore he
        obtain heq | hbefore := List.prefix_concat_iff.mp hbefore
        · rwa [heq]
        · exact hfirst before e hbefore he
      rw [hcount]
      obtain ⟨between, c, rest, rfl, hc, hstart⟩ | ⟨hnone, hstart⟩ := ih _ hd hseen' hfirst'
      · exact .inl ⟨t :: between, c, rest, rfl, by simpa using hc, hstart⟩
      · refine .inr ⟨fun between c rest h => ?_, hstart⟩
        cases between with
        | nil =>
          cases h
          intro hc
          rw [List.append_nil] at hc
          exact hopen hc.balanced
        | cons u between =>
          cases h
          simpa using hnone between c rest rfl

end Counting

/-- On every text and at every offset of it, the forms on the stack, outermost first, are those that
open in front of the offset and close no sooner, in the order of their openers. And a form closes at
the first later closer at which as many forms have closed as have opened from its opener on, or at
the end of the text when there is none. -/
theorem openForms_agree (text : List Char) :
    (∀ offset ≤ text.length,
      ((openForms text offset).reverse.map (·.start)).Pairwise (· < ·) ∧
      ∀ p, p ∈ (openForms text offset).reverse.map (·.start) ↔
        (∃ t ∈ tokens text, t.isOpener = true ∧ t.start = p) ∧ p < offset ∧
          (offset : Int) ≤ matchingClose text p) ∧
    ∀ before t after, tokens text = before ++ t :: after → t.isOpener = true →
      (∃ between c rest, after = between ++ c :: rest ∧ ClosesFirst (t :: between) c ∧
        matchingClose text t.start = c.start) ∨
      (∀ between c rest, after = between ++ c :: rest → ¬ ClosesFirst (t :: between) c) ∧
        matchingClose text t.start = text.length := by
  refine ⟨fun offset hoffset => ⟨?_, fun p => mem_openForms_iff hoffset⟩, ?_⟩
  · rw [map_start_openForms, List.pairwise_map]
    exact (pairwise_start_tokens text).sublist
      ((unclosed_sublist _).trans (List.takeWhile_sublist _))
  · intro before t after htokens hopen
    have hclose := Span.not_isCloser_of_isOpener hopen
    rw [matchingClose_eq htokens hopen]
    refine (closingStart_cases [t] Nat.one_pos (by simp [hopen, hclose]) ?_ after).imp ?_ ?_
    · intro before d hbefore hd
      have ht : d ∈ [t] := hbefore.subset (List.mem_append_right before List.mem_cons_self)
      rw [List.mem_singleton.mp ht, hclose] at hd
      cases hd
    · rintro ⟨between, c, rest, hafter, hc, hstart⟩
      exact ⟨between, c, rest, hafter, hc, by simp [hstart]⟩
    · rintro ⟨hnone, hstart⟩
      exact ⟨hnone, by simp [hstart]⟩

/-- A spare closer, a form that the other bracket closes, and brackets in a string and a comment. -/
def crossed : List Char := ") (a [b) \"(\" #(c ; )\n".toList

theorem openForms_agree_crossed : 21 ≤ crossed.length ∧
    2 ∈ (openForms crossed 21).reverse.map (·.start) ∧
    5 ∉ (openForms crossed 21).reverse.map (·.start) ∧
    ∃ between c rest, (tokens crossed).drop 4 = between ++ c :: rest ∧
      ClosesFirst (⟨['['], 5, 6⟩ :: between) c ∧ (c.start : Int) = 7 := by
  have htokens : tokens crossed = [⟨[')'], 0, 1⟩, ⟨['('], 2, 3⟩, ⟨['a'], 3, 4⟩] ++
      ⟨['['], 5, 6⟩ :: [⟨['b'], 6, 7⟩, ⟨[')'], 7, 8⟩, ⟨['\x22', '(', '\x22'], 9, 12⟩,
        ⟨['#', '('], 13, 15⟩, ⟨['c'], 15, 16⟩] := by decide +kernel
  have hlength : 21 ≤ crossed.length := by decide
  have htwo : matchingClose crossed (2 : Nat) = 21 := by decide +kernel
  have hfive : matchingClose crossed (5 : Nat) = 7 := by decide +kernel
  obtain ⟨hforms, hcloses⟩ := openForms_agree crossed
  obtain ⟨-, hforms⟩ := hforms 21 hlength
  refine ⟨hlength, (hforms 2).mpr ⟨⟨⟨['('], 2, 3⟩, ?_, rfl, rfl⟩, by decide, ?_⟩, fun h => ?_, ?_⟩
  · rw [htokens]
    decide
  · rw [htwo]
    decide
  · have hle := ((hforms 5).mp h).2.2
    rw [hfive] at hle
    exact absurd hle (by decide)
  · rw [htokens]
    obtain ⟨between, c, rest, hafter, hc, hstart⟩ | ⟨-, hend⟩ := hcloses _ _ _ htokens rfl
    · exact ⟨between, c, rest, hafter, hc, hstart.symm.trans hfive⟩
    · exact absurd (hfive.symm.trans hend) (by decide)

end LiveScheme.Buffer
