import LiveScheme.Proofs.Reading.Fault
import LiveScheme.Proofs.Reading.Names

/-!
# Texts without faults

A fault comes from a single token, whatever was read before it. A token that was taken once is
never faulted on, so a datum that was read can be written into another text without a fault: its
tokens denote something, also the character that a name takes from behind it.
-/

namespace LiveScheme

open Text

/-- The reader does not fault on the token, whatever it has read before. -/
def Token.IsSound (t : Token) : Prop := ∀ r f, Datum.Reading.step r t ≠ .error (.fault f)

namespace Datum.Reading

/-- A token that was taken once is never faulted on. -/
theorem isSound_of_step {r r' : Reading} {t : Token} (h : step r t = .ok r') : t.IsSound :=
  fun _ _ hf => denoted?_ne_error h _ (denoted?_of_fault hf)

theorem isSound_of_run {r r' : Reading} {ts : List Token} (h : run r ts = .ok r') :
    ∀ t ∈ ts, t.IsSound := fun t ht => by
  obtain ⟨s, s', hstep⟩ := exists_of_run h t ht
  exact isSound_of_step hstep

theorem run_ne_fault {ts : List Token} (h : ∀ t ∈ ts, t.IsSound) (r : Reading) (f : Fault) :
    run r ts ≠ .error (.fault f) := by
  induction ts generalizing r with
  | nil => exact fun h => by cases h
  | cons t ts ih =>
    obtain ⟨ht, hts⟩ := List.forall_mem_cons.mp h
    rw [run]
    cases hstep : step r t with
    | error e =>
      rintro ⟨⟩
      exact ht r f hstep
    | ok s => exact ih hts s

theorem Delivers.isSound {ts : List Token} {d : Datum} (h : Delivers ts d) : ∀ t ∈ ts, t.IsSound :=
  isSound_of_run (h [] [] trivial)

end Datum.Reading

theorem Node.itemsChars_eq (items : List Datum) :
    itemsChars Empty.elim true items = [' '].intercalate (items.map (chars Empty.elim true)) := by
  induction items with
  | nil => rfl
  | cons x rest ih =>
    cases rest with
    | nil => rw [itemsChars, List.append_nil, List.map_singleton, List.intercalate_singleton]
    | cons y rest =>
      have hrest := congrArg (chars Empty.elim true x ++ [' '] ++ ·) ih
      rwa [List.map_cons, ← List.intercalate_cons_cons, ← List.map_cons, ← List.map_cons,
        List.append_assoc] at hrest

namespace Lexed

/-- The reader faults on no token of the text. -/
def IsCalm (cs : List Char) : Prop := ∀ total, ∀ t ∈ (scanFrom total cs).tokens, t.IsSound

variable {cs rest : List Char}

theorem IsCalm.readAll_ne_fault {text : String} (h : IsCalm text.toList) (f : Fault) :
    Datum.readAll text ≠ .error (.fault f) := fun hread =>
  Datum.Reading.run_ne_fault (h _) _ f (Datum.readAll_eq_fault.mp hread)

theorem isCalm_nil : IsCalm [] := fun total => by
  rw [scanFrom_blank (List.forall_mem_nil _)]
  exact List.forall_mem_nil _

theorem isCalm_of_scan {c : Char} {t : Token} (hc : isBlank c = false)
    (hscan : Token.scan (c :: cs) = .token t rest) (ht : t.IsSound) (h : IsCalm rest) :
    IsCalm (c :: cs) := fun total => by
  have hcs : scanFrom total ([] ++ c :: cs) = prepend [t] (scanFrom total rest) :=
    scanFrom_blanks_append (List.forall_mem_nil _) hc hscan
  rw [List.nil_append] at hcs
  rw [hcs]
  exact List.forall_mem_append.mpr ⟨List.forall_mem_singleton.mpr ht, h total⟩

theorem IsCalm.space (h : IsCalm cs) : IsCalm (' ' :: cs) := fun total => by
  have htrim : trimStart (' ' :: cs) = trimStart cs := rfl
  have htokens : (scanFrom total (' ' :: cs)).tokens = (scanFrom total cs).tokens := by
    cases hscan : Token.scan (trimStart cs) with
    | ended => rw [scanFrom_of_ended hscan, scanFrom_of_ended (htrim ▸ hscan)]
    | skipped rest => rw [scanFrom_of_skipped hscan, scanFrom_of_skipped (htrim ▸ hscan)]
    | token t rest => rw [scanFrom_of_token hscan, scanFrom_of_token (htrim ▸ hscan)]
    | gap gap => rw [scanFrom_of_gap hscan, scanFrom_of_gap (htrim ▸ hscan)]
    | dangling => rw [scanFrom_of_dangling hscan, scanFrom_of_dangling (htrim ▸ hscan)]
  rw [htokens]
  exact h total

theorem IsCalm.close (h : IsCalm cs) : IsCalm (')' :: cs) :=
  isCalm_of_scan (by decide) rfl (fun r f hf => by cases Datum.Reading.denoted?_of_fault hf) h

theorem IsCalm.bracket (h : IsCalm cs) : IsCalm ('(' :: cs) :=
  isCalm_of_scan (by decide) rfl (fun r f hf => by cases Datum.Reading.denoted?_of_fault hf) h

/-- A blank or a closing bracket. -/
def EndsWord (c : Char) : Prop := c = ' ' ∨ c = ')'

theorem IsCalm.cons {c : Char} (hc : EndsWord c) (h : IsCalm cs) : IsCalm (c :: cs) := by
  obtain rfl | rfl := hc
  · exact h.space
  · exact h.close

/-- The text brings no fault where a blank or a closing bracket follows it. -/
def IsHarmless (w : List Char) : Prop :=
  ∀ c rest, EndsWord c → IsCalm rest → IsCalm (w ++ c :: rest)

namespace IsHarmless

variable {w : List Char}

theorem of_yields {ts : List Token} (hw : Yields w ts) (hts : ∀ t ∈ ts, t.IsSound) :
    IsHarmless w := by
  intro c rest hc hrest total
  have hgap : Token.AtGap (c :: rest) := by
    obtain rfl | rfl := hc
    · exact Token.atGap_cons (by decide) rest
    · exact Token.atGap_cons (by decide) rest
  have hscan := hw total [] (c :: rest) (List.forall_mem_nil _) hgap
  rw [List.nil_append] at hscan
  rw [hscan]
  exact List.forall_mem_append.mpr ⟨hts, hrest.cons hc total⟩

theorem dot : IsHarmless ['.'] :=
  .of_yields (yields_word Token.isWord_dot)
    (List.forall_mem_singleton.mpr fun r f hf => by cases Datum.Reading.denoted?_of_fault hf)

/-- The beginning of a character takes what follows, and that is a character. -/
theorem bareName : IsHarmless ['#', '\\'] := by
  intro c rest hc hrest
  have hscan : Token.scan ('#' :: '\\' :: c :: rest) = .token ⟨.char, ['#', '\\', c]⟩ rest := by
    obtain rfl | rfl := hc <;> rfl
  refine isCalm_of_scan (by decide) hscan (fun r f hf => ?_) hrest
  have hdenoted := Datum.Reading.denoted?_of_fault hf
  obtain rfl | rfl := hc <;> cases hdenoted

theorem quote (h : IsHarmless w) : IsHarmless ('\x27' :: w) := fun c rest hc hrest =>
  isCalm_of_scan (by decide) rfl (fun r f hf => by cases Datum.Reading.denoted?_of_fault hf)
    (h c rest hc hrest)

theorem isCalm_list (h : IsHarmless w) : IsCalm ('(' :: w ++ [')']) :=
  (h ')' [] (.inr rfl) isCalm_nil).bracket

theorem list (h : IsHarmless w) : IsHarmless ('(' :: w ++ [')']) := by
  intro c rest hc hrest
  rw [List.append_assoc]
  exact (h ')' (c :: rest) (.inr rfl) (hrest.cons hc)).bracket

theorem vector (h : IsHarmless w) : IsHarmless ('#' :: '(' :: w ++ [')']) := by
  intro c rest hc hrest
  rw [List.append_assoc]
  exact isCalm_of_scan (by decide) rfl (fun r f hf => by cases Datum.Reading.denoted?_of_fault hf)
    (h ')' (c :: rest) (.inr rfl) (hrest.cons hc))

theorem space {v : List Char} (hw : IsHarmless w) (hv : IsHarmless v) :
    IsHarmless (w ++ ' ' :: v) := by
  intro c rest hc hrest
  rw [List.append_assoc]
  exact hw ' ' (v ++ c :: rest) (.inl rfl) (hv c rest hc hrest)

theorem nil : IsHarmless [] := fun _ _ hc hrest => hrest.cons hc

theorem intercalate {ws : List (List Char)} (h : ∀ w ∈ ws, IsHarmless w) :
    IsHarmless ([' '].intercalate ws) := by
  induction ws with
  | nil => exact .nil
  | cons w ws ih =>
    obtain ⟨hw, hws⟩ := List.forall_mem_cons.mp h
    cases ws with
    | nil => rwa [List.intercalate_singleton]
    | cons v ws =>
      rw [List.intercalate_cons_cons, List.append_assoc]
      exact hw.space (ih hws)

end IsHarmless

/-- A written datum brings no fault, whatever names it has read. -/
theorem isHarmless_chars {d : Datum} (h : d.Over Datum.IsRead) :
    IsHarmless (Node.chars Empty.elim true d) := by
  have hatom : ∀ {a : Datum}, a.Over Datum.IsSpelt → a.Over Datum.IsDenoted →
      IsHarmless (Node.chars Empty.elim true a) := fun hspelt hdenoted =>
    .of_yields (yields_of_isSpelt hspelt) hdenoted.delivers_reread.isSound
  induction h with
  | bool b => exact hatom (.bool b trivial) (.bool b trivial)
  | int n => exact hatom (.int n trivial) (.int n trivial)
  | real x => exact hatom (.real x trivial) (.real x trivial)
  | str text => exact hatom (.str text trivial) (.str text trivial)
  | char c => exact hatom (.char c trivial) (.char c trivial)
  | sym name hname =>
    have hname : Datum.ReadName name := hname
    obtain hword | rfl := hname.isWord
    · exact hatom (.sym name hword) (.sym name ⟨hname.ne_dot, hname.denotes⟩)
    · exact .bareName
  | list items _ ih =>
    rw [Node.chars, Node.itemsChars_eq]
    exact (IsHarmless.intercalate (List.forall_mem_map.mpr ih)).list
  | vector items _ ih =>
    rw [Node.chars, Node.itemsChars_eq]
    exact (IsHarmless.intercalate (List.forall_mem_map.mpr ih)).vector
  | improper items tail _ _ _ _ ih iht =>
    have hitems := IsHarmless.intercalate (List.forall_mem_map.mpr ih)
    have hall := (hitems.space (IsHarmless.dot.space iht)).list
    rw [Node.chars, Node.itemsChars_eq]
    simpa using hall

end Lexed

namespace Datum

theorem over_isRead_of_readOne {source : String} {d : Datum} (h : readOne source = .ok d) :
    d.Over IsRead := by
  unfold readOne at h
  cases hrun : Reading.start.runToFirst (Lexed.ofText source.toList).tokens with
  | error e =>
    simp only [hrun] at h
    cases h
  | ok r =>
    simp only [hrun] at h
    obtain ⟨done, stack⟩ := r
    cases done with
    | nil =>
      cases hfailure : (Lexed.ofText source.toList).failure with
      | none => simp only [hfailure] at h; cases h
      | some e => simp only [hfailure] at h; cases h
    | cons e done =>
      cases h
      have hstart : Reading.ReadOver (IsNamed (Lexed.ofText source.toList).tokens)
        Reading.start := ⟨List.forall_mem_nil _, List.forall_mem_nil _⟩
      obtain ⟨us, hus, hrun⟩ := Reading.exists_run_of_runToFirst hrun
      have hover := Reading.readOver_run hstart (fun _ ht => brings_isNamed (hus.subset ht)) hrun
      refine (hover.done d List.mem_cons_self).mono fun a ha => ?_
      cases a with
      | sym name => exact .of_named ha
      | _ => trivial

end Datum

end LiveScheme
