import LiveScheme.Proofs.Reading.RoundTrip

/-!
# The steps of the reader

A token opens a construct or denotes a datum, whatever was read before it. Only closing brackets and
dots depend on the construct that they stand in, so a step fails either at what its token denotes or
at the place of the token. A run fails where one of its steps does, and keeps what all of them keep.
Data that were read before stay where they are.
-/

namespace LiveScheme

namespace Token

open Datum.Reading

/-- The construct that the token opens. -/
def opened? (t : Token) : Option Datum.Open :=
  match t.kind with
  | .datumComment => some .ignored
  | .quote | .unquote => some (.quoted (quoteName t.text))
  | .vectorOpen => some (.vector [])
  | .listOpen => some (.list [])
  | _ => none

/-- What the token denotes by itself. -/
def denoted? (t : Token) : Option (Except ReadError Datum) :=
  match t.kind with
  | .text => some (((Atom.unescape (inner t.text)).mapError .fault).map fun body =>
      Datum.str (String.ofList body))
  | .char => some ((Atom.char (t.text.drop 2)).map .char)
  | .bool => some (.ok (.bool (t.text.take 2 == ['#', 't'])))
  | .word => if t.text = ['.'] then none else some (Atom.word t.text)
  | _ => none

end Token

/-- An error about the place of a token, not about the token. -/
def ReadError.isMisplaced : ReadError → Bool
  | .unexpectedClose _ | .unexpectedDot | .badDottedList | .unclosedTail => true
  | _ => false

namespace Datum.Reading

variable {r r' : Reading} {t : Token} {ts : List Token} {e : ReadError}

/-- What a token does where a datum can stand. -/
inductive Taking (t : Token) : Prop
  | opens (o : Open) : t.opened? = some o →
    (∀ r : Reading, take r t = .ok ⟨r.done, o :: r.stack⟩) → Taking t
  | denotes (x : Except ReadError Datum) : t.denoted? = some x →
    (∀ r : Reading, take r t = x.map (deliver r.done · r.stack)) → Taking t
  | closes : t.kind = .close → (∀ r, take r t = close r t.text) → Taking t
  | dots : t = Token.dot → (∀ r, take r t = dot r) → Taking t

theorem taking (t : Token) : Taking t := by
  obtain ⟨kind, text⟩ := t
  cases kind with
  | datumComment | quote | unquote | vectorOpen | listOpen => exact .opens _ rfl fun _ => rfl
  | close => exact .closes rfl fun _ => rfl
  | bool => exact .denotes _ rfl fun _ => rfl
  | text =>
    refine .denotes _ rfl fun r => ?_
    simp only [take]
    cases Atom.unescape (inner text) <;> rfl
  | char =>
    refine .denotes _ rfl fun r => ?_
    simp only [take]
    cases Atom.char (text.drop 2) <;> rfl
  | word =>
    by_cases hdot : text = ['.']
    · subst hdot
      exact .dots rfl fun _ => rfl
    · refine .denotes (Atom.word text) (if_neg hdot) fun r => ?_
      simp only [take, if_neg hdot]
      cases Atom.word text <;> rfl

theorem isMisplaced_of_close {text : List Char} (h : close r text = .error e) :
    e.isMisplaced = true := by
  unfold close at h
  split at h <;> cases h
  rfl

theorem isMisplaced_of_dot (h : dot r = .error e) : e.isMisplaced = true := by
  unfold dot at h
  split at h <;> cases h <;> rfl

/-- A step fails at what its token denotes or at the place of the token. -/
theorem step_error_cases (h : step r t = .error e) :
    t.denoted? = some (.error e) ∨ e.isMisplaced = true := by
  unfold step at h
  split at h
  · split at h
    · exact .inr (isMisplaced_of_close h)
    · cases h
      exact .inr rfl
  · cases taking t with
    | opens o _ htake => rw [htake] at h; cases h
    | denotes x hx htake =>
      rw [htake] at h
      cases x with
      | ok d => cases h
      | error e' => cases h; exact .inl hx
    | closes _ htake => exact .inr (isMisplaced_of_close (htake r ▸ h))
    | dots _ htake => exact .inr (isMisplaced_of_dot (htake r ▸ h))

/-- A token that is taken denotes something, if it has to. -/
theorem denoted?_ne_error (h : step r t = .ok r') (e : ReadError) :
    t.denoted? ≠ some (.error e) := by
  intro herror
  unfold step at h
  split at h
  · split at h
    · next hclose =>
      rw [Token.denoted?, hclose] at herror
      cases herror
    · cases h
  · cases taking t with
    | opens o ho htake =>
      obtain ⟨kind, text⟩ := t
      cases kind <;> cases ho <;> cases herror
    | denotes x hx htake =>
      cases hx.symm.trans herror
      rw [htake] at h
      cases h
    | closes hclose _ =>
      rw [Token.denoted?, hclose] at herror
      cases herror
    | dots hdot _ =>
      rw [hdot] at herror
      cases herror

section Runs

theorem run_cons_of_step (h : step r t = .ok r') : run r (t :: ts) = run r' ts := by
  rw [run, h]
  rfl

/-- The first step of a run that succeeds. -/
theorem step_of_run_cons {last : Reading} (h : run r (t :: ts) = .ok last) :
    ∃ r', step r t = .ok r' ∧ run r' ts = .ok last := by
  cases hstep : step r t with
  | error e =>
    rw [run, hstep] at h
    cases h
  | ok r' => exact ⟨r', rfl, run_cons_of_step hstep ▸ h⟩

/-- A run fails where one of its steps does. -/
theorem exists_of_run_error (h : run r ts = .error e) : ∃ t ∈ ts, ∃ s, step s t = .error e := by
  induction ts generalizing r with
  | nil => cases h
  | cons t ts ih =>
    cases hstep : step r t with
    | error e' =>
      rw [run, hstep] at h
      cases h
      exact ⟨t, List.mem_cons_self, r, hstep⟩
    | ok r' =>
      obtain ⟨u, hu, hfails⟩ := ih (run_cons_of_step hstep ▸ h)
      exact ⟨u, List.mem_cons_of_mem t hu, hfails⟩

/-- What all steps keep, a run keeps. -/
theorem run_keeps {P : Reading → Prop}
    (hstep : ∀ t ∈ ts, ∀ {s s' : Reading}, P s → step s t = .ok s' → P s') (hr : P r)
    (h : run r ts = .ok r') : P r' := by
  induction ts generalizing r with
  | nil =>
    cases h
    exact hr
  | cons t ts ih =>
    obtain ⟨s, hs, hrun⟩ := step_of_run_cons h
    obtain ⟨hfirst, hrest⟩ := List.forall_mem_cons.mp hstep
    exact ih hrest (hfirst hr hs) hrun

theorem exists_of_run (h : run r ts = .ok r') : ∀ t ∈ ts, ∃ s s', step s t = .ok s' := by
  induction ts generalizing r with
  | nil => exact List.forall_mem_nil _
  | cons t ts ih =>
    obtain ⟨s, hs, hrun⟩ := step_of_run_cons h
    exact List.forall_mem_cons.mpr ⟨⟨r, s, hs⟩, ih hrun⟩

/-- Reading up to the first datum is a run over the first tokens. -/
theorem exists_run_of_runToFirst (h : runToFirst r ts = .ok r') :
    ∃ us, us <+: ts ∧ run r us = .ok r' := by
  induction ts generalizing r with
  | nil => exact ⟨[], List.nil_prefix, h⟩
  | cons t ts ih =>
    rw [runToFirst] at h
    cases hstep : step r t with
    | error e => rw [hstep] at h; cases h
    | ok s =>
      rw [hstep] at h
      change (if s.done.isEmpty then runToFirst s ts else Except.ok s) = _ at h
      split at h
      · obtain ⟨us, hus, hrun⟩ := ih h
        exact ⟨t :: us, (List.prefix_cons_inj t).mpr hus, (run_cons_of_step hstep).trans hrun⟩
      · cases h
        exact ⟨[t], List.prefix_append [t] ts, run_cons_of_step hstep⟩

theorem run_of_runToFirst_error (h : runToFirst r ts = .error e) : run r ts = .error e := by
  induction ts generalizing r with
  | nil => cases h
  | cons t ts ih =>
    rw [runToFirst] at h
    cases hstep : step r t with
    | error e' =>
      rw [hstep] at h
      rw [run, hstep]
      exact h
    | ok s =>
      rw [hstep] at h
      change (if s.done.isEmpty then runToFirst s ts else Except.ok s) = _ at h
      split at h
      · exact (run_cons_of_step hstep).trans (ih h)
      · cases h

end Runs

section Onto

/-- The same state on top of data read before. -/
def onto (base : List Datum) (r : Reading) : Reading := ⟨r.done ++ base, r.stack⟩

theorem deliver_onto (base done : List Datum) (d : Datum) (stack : List Open) :
    deliver (done ++ base) d stack = (deliver done d stack).onto base := by
  fun_induction deliver done d stack <;> simp_all [deliver, onto]

theorem close_onto (base : List Datum) (r : Reading) (text : List Char) :
    close (r.onto base) text = (close r text).map (onto base) := by
  simp only [close, onto]
  split <;> simp_all [Except.map, deliver_onto]

theorem dot_onto (base : List Datum) (r : Reading) :
    dot (r.onto base) = (dot r).map (onto base) := by
  simp only [dot, onto]
  split <;> simp_all [Except.map]
  rfl

theorem take_onto (base : List Datum) (r : Reading) (t : Token) :
    take (r.onto base) t = (take r t).map (onto base) := by
  cases taking t with
  | opens o _ htake =>
    rw [htake, htake]
    rfl
  | denotes x _ htake =>
    rw [htake, htake]
    cases x with
    | error e => rfl
    | ok d => exact congrArg Except.ok (deliver_onto base r.done d r.stack)
  | closes _ htake =>
    rw [htake, htake]
    exact close_onto base r t.text
  | dots _ htake =>
    rw [htake, htake]
    exact dot_onto base r

theorem step_onto (base : List Datum) (r : Reading) (t : Token) :
    step (r.onto base) t = (step r t).map (onto base) := by
  simp only [step, onto]
  split
  · split
    · exact close_onto base r t.text
    · rfl
  · exact take_onto base r t

theorem run_onto (base : List Datum) (r : Reading) (ts : List Token) :
    run (r.onto base) ts = (run r ts).map (onto base) := by
  induction ts generalizing r with
  | nil => rfl
  | cons t ts ih =>
    rw [run, run, step_onto]
    cases step r t with
    | error e => rfl
    | ok r => exact ih r

end Onto

end Datum.Reading

end LiveScheme
