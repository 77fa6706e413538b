import LiveScheme.Buffer.Scanner
import Mathlib.Data.List.Basic

/-!
# Spans of buffers

The pieces of a buffer follow one another without a gap, each with the text that stands at its
offset. What a piece is depends only on the text from there on. A buffer that is cut in front of a
token therefore has the tokens that followed, at offsets that count from the cut.
-/

namespace LiveScheme

namespace Span

/-- The same piece behind `n` more characters. -/
def shift (n : Nat) (s : Span) : Span := ⟨s.text, n + s.start, n + s.stop⟩

@[simp] theorem start_shift (n : Nat) (s : Span) : (s.shift n).start = n + s.start := rfl

@[simp] theorem isOpener_shift (n : Nat) (s : Span) : (s.shift n).isOpener = s.isOpener := rfl

@[simp] theorem isCloser_shift (n : Nat) (s : Span) : (s.shift n).isCloser = s.isCloser := rfl

theorem not_isCloser_of_isOpener {s : Span} (h : s.isOpener = true) : s.isCloser = false := by
  simp only [isOpener, Bool.or_eq_true, beq_iff_eq] at h
  rcases h with (h | h) | h <;> simp [isCloser, h]

/-- The piece is the text between its offsets, and there is some. -/
structure StandsIn (text : List Char) (s : Span) : Prop where
  nonempty : s.text ≠ []
  stop : s.stop = s.start + s.text.length
  begins : s.text <+: text.drop s.start

theorem StandsIn.stop_le {text : List Char} {s : Span} (h : s.StandsIn text) :
    s.stop ≤ text.length := by
  have hlength := h.begins.length_le
  have hnonempty := List.length_pos_iff.mpr h.nonempty
  rw [List.length_drop] at hlength
  rw [h.stop]
  omega

theorem StandsIn.start_lt {text : List Char} {s : Span} (h : s.StandsIn text) :
    s.start < s.stop := by
  have hnonempty := List.length_pos_iff.mpr h.nonempty
  rw [h.stop]
  omega

end Span

namespace Scanner

theorem piecesFrom_cons (offset : Nat) (c : Char) (rest : List Char) : ∃ here left,
    here ≠ [] ∧ c :: rest = here ++ left ∧
      piecesFrom offset (c :: rest) =
        ⟨here, offset, offset + here.length⟩ :: piecesFrom (offset + here.length) left := by
  refine ⟨c :: rest.take (moreLength c rest), rest.drop (moreLength c rest), List.cons_ne_nil _ _,
    by simp, ?_⟩
  rw [piecesFrom]

/-- Offsets count from the first one. -/
theorem piecesFrom_eq_map (offset : Nat) (cs : List Char) :
    piecesFrom offset cs = (piecesFrom 0 cs).map (Span.shift offset) := by
  have hshift : ∀ offset m, piecesFrom (m + offset) cs =
      (piecesFrom offset cs).map (Span.shift m) := by
    intro offset
    fun_induction piecesFrom offset cs with
    | case1 offset =>
      intro m
      simp [piecesFrom]
    | case2 offset c rest n here ih =>
      intro m
      rw [piecesFrom, List.map_cons, ← ih m]
      simp [Span.shift, here, n, Nat.add_assoc]
  exact hshift 0 offset

/-- From each of its pieces on, a text is cut as if it began there. -/
theorem piecesFrom_of_append {offset : Nat} {cs : List Char} {before after : List Span} {t : Span}
    (h : piecesFrom offset cs = before ++ t :: after) :
    ∃ front back, cs = front ++ back ∧ t.start = offset + front.length ∧
      piecesFrom t.start back = t :: after := by
  induction before generalizing offset cs with
  | nil =>
    cases cs with
    | nil => simp [piecesFrom] at h
    | cons c rest =>
      obtain ⟨here, left, -, -, hpieces⟩ := piecesFrom_cons offset c rest
      have hstart : t.start = offset := by
        rw [hpieces] at h
        cases h
        rfl
      exact ⟨[], c :: rest, rfl, hstart, hstart ▸ h⟩
  | cons s before ih =>
    cases cs with
    | nil => simp [piecesFrom] at h
    | cons c rest =>
      obtain ⟨here, left, -, hcut, hpieces⟩ := piecesFrom_cons offset c rest
      rw [hpieces] at h
      obtain ⟨front, back, rfl, hstart, hback⟩ := ih (List.cons.inj h).2
      refine ⟨here ++ front, back, by rw [hcut, List.append_assoc], ?_, hback⟩
      rw [hstart, List.length_append]
      omega

theorem standsIn_of_mem_piecesFrom {text : List Char} {t : Span} (h : t ∈ piecesFrom 0 text) :
    t.StandsIn text := by
  obtain ⟨before, after, h⟩ := List.append_of_mem h
  obtain ⟨front, back, rfl, hstart, hback⟩ := piecesFrom_of_append h
  rw [Nat.zero_add] at hstart
  cases back with
  | nil => simp [piecesFrom] at hback
  | cons c rest =>
    obtain ⟨here, left, hne, hcut, hpieces⟩ := piecesFrom_cons t.start c rest
    rw [hpieces] at hback
    have ht := (List.cons.inj hback).1
    have htext : t.text = here := (congrArg Span.text ht).symm
    have hstop : t.stop = t.start + here.length := (congrArg Span.stop ht).symm
    refine ⟨htext ▸ hne, htext ▸ hstop, ?_⟩
    rw [htext, hstart, List.drop_left, hcut]
    exact List.prefix_append _ _

theorem start_le_of_mem_piecesFrom {offset : Nat} {cs : List Char} {t : Span}
    (h : t ∈ piecesFrom offset cs) : offset ≤ t.start := by
  obtain ⟨before, after, h⟩ := List.append_of_mem h
  obtain ⟨front, -, -, hstart, -⟩ := piecesFrom_of_append h
  omega

/-- Each piece ends before the later ones begin. -/
theorem pairwise_piecesFrom (offset : Nat) (cs : List Char) :
    (piecesFrom offset cs).Pairwise fun s t => s.stop ≤ t.start := by
  fun_induction piecesFrom offset cs with
  | case1 offset => exact .nil
  | case2 offset c rest n here ih =>
    exact List.pairwise_cons.mpr ⟨fun t ht => start_le_of_mem_piecesFrom ht, ih⟩

variable {text : List Char} {t : Span}

theorem standsIn_of_mem (h : t ∈ tokens text) : t.StandsIn text :=
  standsIn_of_mem_piecesFrom (List.mem_of_mem_filter h)

theorem pairwise_tokens (text : List Char) :
    (tokens text).Pairwise fun s t => s.stop ≤ t.start :=
  (pairwise_piecesFrom 0 text).filter _

theorem pairwise_start_tokens (text : List Char) :
    (tokens text).Pairwise fun s t => s.start < t.start :=
  (pairwise_tokens text).imp_of_mem fun hs _ hst =>
    Nat.lt_of_lt_of_le (standsIn_of_mem hs).start_lt hst

/-- A text that is cut in front of a token has the tokens from there on. -/
theorem tokens_drop {before after : List Span} (h : tokens text = before ++ t :: after) :
    (tokens (text.drop t.start)).map (Span.shift t.start) = t :: after := by
  obtain ⟨front, back, hpieces, -, hback⟩ := List.filter_eq_append_iff.mp h
  obtain ⟨skipped, later, rfl, hskipped, ht, hlater⟩ := List.filter_eq_cons_iff.mp hback
  rw [← List.append_assoc] at hpieces
  obtain ⟨read, rest, rfl, hstart, hrest⟩ := piecesFrom_of_append hpieces
  rw [Nat.zero_add] at hstart
  have hfilter : (tokens rest).map (Span.shift t.start) =
      (piecesFrom t.start rest).filter (!isSkipped ·.text) := by
    rw [piecesFrom_eq_map t.start, List.filter_map]
    rfl
  rw [hstart, List.drop_left, ← hstart, hfilter, hrest, List.filter_cons, if_pos ht, hlater]

end Scanner

end LiveScheme
