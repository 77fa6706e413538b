import LiveScheme.Proofs.Mirror.Same

/-!
# Services on machines that live up to a standard

A service answers new data, what it captured of an evaluation, and parts of what the machine holds.
None of this is a keyword or holds one that was not there before. A service may make a loose pair,
so the standard has to allow for those.
-/

namespace LiveScheme

open Link

variable {S : Standard} {lax : Bool}

section Outcomes

variable {α : Type} [Checkable α]

/-- Either the first run is endless, or the second run ends in the same way. -/
theorem same_cases {x x' : Run α} (hx : (same S lax).Mirrors x x') {m : Machine}
    (hm : m.Upholds S) :
    (lax = true ∧ ∃ n, x m = .error .endless n ∧ n.Upholds S) ∨
      x' m = x m ∧ (x.after m).Upholds S ∧ ∀ a n, x m = .ok a n → Meets S a := by
  cases h : x m with
  | ok a n =>
    obtain ⟨ha, hlost | ⟨n', h', rfl, hn⟩⟩ := hx.ok ⟨rfl, hm⟩ h
    · exact hlost.elim
    · refine .inr ⟨h', ?_, ?_⟩
      · rwa [Run.after_of_ok h]
      · rintro b n hb
        cases hb
        exact ha
  | error stop n =>
    rcases hx.error ⟨rfl, hm⟩ h with hlost | ⟨hlax, rfl, hn⟩ | ⟨n', h', rfl, hn⟩
    · exact hlost.elim
    · exact .inl ⟨hlax, n, rfl, hn⟩
    · refine .inr ⟨h', ?_, fun b n hb => by cases hb⟩
      rwa [Run.after_of_error h]

theorem same_mirrors_of {x x' : Run α}
    (h : ∀ m : Machine, m.Upholds S →
      (lax = true ∧ ∃ n, x m = .error .endless n ∧ n.Upholds S) ∨
      x' m = x m ∧ (x.after m).Upholds S ∧ ∀ a n, x m = .ok a n → Meets S a) :
    (same S lax).Mirrors x x' where
  ok {m m' a n} hm hx := by
    obtain ⟨rfl, hm⟩ := hm
    rcases h _ hm with ⟨-, n', hend, -⟩ | ⟨heq, hn, ha⟩
    · rw [hend] at hx
      cases hx
    · rw [Run.after_of_ok hx] at hn
      exact ⟨ha a n hx, .inr ⟨n, heq.trans hx, rfl, hn⟩⟩
  error {m m' stop n} hm hx := by
    obtain ⟨rfl, hm⟩ := hm
    rcases h _ hm with ⟨hlax, n', hend, hn⟩ | ⟨heq, hn, -⟩
    · rw [hend] at hx
      cases hx
      exact .inr (.inl ⟨hlax, rfl, hn⟩)
    · rw [Run.after_of_error hx] at hn
      exact .inr (.inr ⟨n, heq.trans hx, rfl, hn⟩)
  lostOk hm := hm.elim
  lostError hm := hm.elim

variable {β : Type} [Checkable β]

/-- What is done about an outcome, as long as an endless run stays endless. -/
theorem same_mirrors_attempt {x x' : Run α} {f : Except Stop α → Run β}
    (hx : (same S lax).Mirrors x x') (hok : ∀ a, Meets S a → (same S lax).Keeps (f (.ok a)))
    (herror : ∀ stop, (same S lax).Keeps (f (.error stop)))
    (hend : f (.error .endless) = throw .endless) :
    (same S lax).Mirrors (Run.attempt x >>= f) (Run.attempt x' >>= f) := by
  refine same_mirrors_of fun m hm => ?_
  rcases same_cases hx hm with ⟨hlax, n, h, hn⟩ | ⟨heq, hn, ha⟩
  · have hattempt : Run.attempt x m = .ok (.error .endless) n := by rw [Run.attempt, h]
    refine .inl ⟨hlax, n, ?_, hn⟩
    rw [bind_of_ok hattempt, hend]
    rfl
  have hsame : Run.attempt x' m = Run.attempt x m := by rw [Run.attempt, Run.attempt, heq]
  cases h : x m with
  | ok a n =>
    have hattempt : Run.attempt x m = .ok (.ok a) n := by rw [Run.attempt, h]
    rw [Run.after_of_ok h] at hn
    have hrest := same_cases (hok a (ha a n h)) hn
    rw [Run.after, bind_of_ok hattempt, bind_of_ok (hsame.trans hattempt)]
    exact hrest
  | error stop n =>
    have hattempt : Run.attempt x m = .ok (.error stop) n := by rw [Run.attempt, h]
    rw [Run.after_of_error h] at hn
    have hrest := same_cases (herror stop) hn
    rw [Run.after, bind_of_ok hattempt, bind_of_ok (hsame.trans hattempt)]
    exact hrest

end Outcomes

instance : Plain Reply where

instance : Plain Connection where

theorem Machine.Upholds.endCapture {m : Machine} (h : m.Upholds S) : m.endCapture.Upholds S :=
  ⟨h.keywords, h.frames, h.modules, h.closures⟩

/-- What is left of a request whose output was captured. -/
theorem Reply.capture_of {x : Run Value} {m n : Machine} (h : x.after m.beginCapture = n) :
    (Reply.capture x).after m = n.endCapture := by
  cases hx : x m.beginCapture with
  | ok a n' =>
    rw [Run.after_of_ok hx] at h
    subst h
    unfold Run.after Reply.capture
    rw [bind_of_ok (Run.capturing_of_ok hx)]
    rfl
  | error stop n' =>
    rw [Run.after_of_error hx] at h
    subst h
    unfold Run.after Reply.capture
    rw [bind_of_ok (Run.capturing_of_error hx)]
    dsimp only
    cases Reply.messageOf? stop <;> rfl

theorem Reply.capture_congr {x x' : Run Value} {m : Machine}
    (h : x' m.beginCapture = x m.beginCapture) : Reply.capture x' m = Reply.capture x m := by
  unfold Reply.capture
  cases hx : x m.beginCapture with
  | ok a n =>
    rw [bind_of_ok (Run.capturing_of_ok hx), bind_of_ok (Run.capturing_of_ok (h.trans hx))]
  | error stop n =>
    rw [bind_of_ok (Run.capturing_of_error hx), bind_of_ok (Run.capturing_of_error (h.trans hx))]

theorem Reply.mirrors_capture {x x' : Run Value} (hx : (same S lax).Mirrors x x') :
    (same S lax).Mirrors (Reply.capture x) (Reply.capture x') := by
  refine same_mirrors_of fun m hm => ?_
  have hbegin : m.beginCapture.Upholds S := ⟨hm.keywords, hm.frames, hm.modules, hm.closures⟩
  rcases same_cases hx hbegin with ⟨hlax, n, hend, hn⟩ | ⟨heq, hn, -⟩
  · refine .inl ⟨hlax, n.endCapture, ?_, hn.endCapture⟩
    unfold Reply.capture
    rw [bind_of_ok (Run.capturing_of_error hend)]
    rfl
  · refine .inr ⟨capture_congr heq, ?_, fun _ _ _ => trivial⟩
    rw [capture_of rfl]
    exact hn.endCapture

theorem Reply.meets_datum (r : Reply) : Meets S r.datum := by
  cases r <;> simp [Reply.datum, meets_list_iff, Node.endsChain]

@[grind .] theorem Reply.keeps_value (r : Reply) : (same S lax).Keeps r.value :=
  keeps_ofDatum r.meets_datum

instance : Plain Introspection.Kind where

namespace Introspection

theorem keeps_classifyAll (modern : Bool) (home : Nat) (names : List String) :
    (same S lax).Keeps (classifyAll modern home names) := by
  induction names with
  | nil => exact .pure (meets_nil.mpr trivial)
  | cons name rest ih =>
    exact .bind (.bind (same_keeps_valueIn? _ _) fun _ _ => .pure trivial) fun kind _ =>
      .bind ih fun _ _ => .pure fun _ _ => ⟨trivial, trivial⟩

theorem meets_exportsDatum (entries : List (String × Kind)) : Meets S (exportsDatum entries) := by
  simp [exportsDatum, listing, meets_list_iff]

theorem keeps_moduleExports (name : Value) :
    (same S lax).Follows (fun d => Meets S d) (moduleExports name) (moduleExports name) := by
  refine same_mirrors_get fun m hm => ?_
  cases m.moduleFor? name with
  | some id => exact .bind (keeps_classifyAll _ _ _) fun _ _ => .pure (meets_exportsDatum _)
  | none => exact .pure (meets_exportsDatum _)

end Introspection

instance : Checkable Signature := ⟨fun S sig => Meets S sig.required⟩

namespace Signature

theorem keeps_argsValue {sig : Signature} (h : Meets S sig) : (same S lax).Keeps sig.argsValue := by
  refine .bind (keeps_newText _) fun word hword => ?_
  refine .bind (keeps_newList (meets_cons.mpr ⟨hword, h⟩)) fun required hrequired => ?_
  refine .bind (keeps_newText _) fun marker hmarker => .bind (keeps_newText _) fun word hword => ?_
  refine .bind (keeps_newList ?_) fun optional hoptional => ?_
  · split <;> simp_all
  refine .bind (keeps_newText _) fun word hword => .bind (keeps_newList ?_) fun key hkey => ?_
  · simpa using hword
  refine .bind (keeps_newText _) fun word hword => .bind (keeps_newList ?_) fun parts hparts => ?_
  · simp_all
  exact keeps_newList (by simp_all)

@[grind .] theorem keeps_moduleValue (home : String) : (same S lax).Keeps (moduleValue home) :=
  .bind (keeps_newText _) fun _ h => keeps_newList (by simpa using h)

@[grind ←] theorem keeps_value {sig : Signature} (h : Meets S sig) : (same S lax).Keeps sig.value :=
  .bind (keeps_argsValue h) fun _ hargs => .bind (keeps_moduleValue _) fun _ hmodule =>
    keeps_newList (by simp_all)

end Signature

instance : Plain Introspection.Found where

namespace Introspection

/-- An entry may be a loose pair. -/
@[grind ←] theorem keeps_entry (hS : S.loosePairs = true) (key : String) {v : Value}
    (hv : Meets S v) : (same S lax).Keeps (entry key v) := by
  have hparts := meets_elements? hv
  refine .bind (keeps_newText key) fun word hword => ?_
  split
  · next items heq =>
    rw [heq] at hparts
    exact keeps_newList (meets_cons.mpr ⟨hword, meets_some.mp hparts⟩)
  · refine keeps_newImproper fun t => meets_improper.mpr ⟨.inl hS, ?_, hv⟩
    exact meets_cons.mpr ⟨hword, meets_nil.mpr trivial⟩

@[grind .] theorem keeps_lookup? (name : Value) (home : Option Value) :
    (same S lax).Keeps (lookup? name home) := by
  unfold lookup?
  split
  · exact .pure (meets_none.mpr trivial)
  · refine same_mirrors_get fun m hm => .bind (same_keeps_valueIn? _ _) fun found _ => ?_
    split <;> exact .pure (meets_plain_option _)

theorem keeps_documentation (hS : S.loosePairs = true) (found : Found) :
    (same S lax).Keeps (documentation found) := by
  unfold documentation
  refine .bind (same_keeps_closure? _) fun c hc => ?_
  have hentries : ∀ signature docstring, Meets S signature →
      (same S lax).Keeps (do
        let signature ← entry "signature" signature
        Run.newList [signature, ← entry "docstring" (← Run.newText docstring)]) := by
    intro signature docstring hsignature
    refine .bind (keeps_entry hS _ hsignature) fun first hfirst => ?_
    refine .bind (keeps_newText _) fun text htext => ?_
    refine .bind (keeps_entry hS _ htext) fun second hsecond => ?_
    exact keeps_newList (by simp_all)
  cases c with
  | some c =>
    have hsig : Meets S (Signature.ofFormals found.name c.formals found.home) :=
      (meets_some.mp hc).1
    exact .bind (Signature.keeps_value hsig) fun _ hsig => hentries _ _ hsig
  | none =>
    dsimp only
    split
    · next heq => cases heq
    · exact .bind (keeps_newText _) fun _ hsig => hentries _ _ hsig
    · refine .bind (Signature.keeps_argsValue (meets_nil.mpr trivial)) fun args hargs => ?_
      refine .bind (keeps_newList (by simp_all)) fun sig hsig => ?_
      exact .bind (keeps_text _) fun _ _ => hentries _ _ hsig

@[grind ←] theorem keeps_symbolDocumentation (hS : S.loosePairs = true) (name : Value)
    (home : Option Value) : (same S lax).Keeps (symbolDocumentation name home) := by
  refine .bind (keeps_lookup? name home) fun found _ => ?_
  cases found with
  | some found => exact keeps_documentation hS found
  | none => exact keeps_newText _

theorem keeps_autodocEntry (hS : S.loosePairs = true) (found : Found) :
    (same S lax).Keeps (autodocEntry found) := by
  refine .bind (same_keeps_closure? _) fun c hc => ?_
  cases c with
  | some c => exact Signature.keeps_value (meets_some.mp hc).1
  | none =>
    split
    · next heq => cases heq
    · exact .bind (Signature.keeps_moduleValue _) fun _ hmodule => keeps_newList (by simp_all)
    · refine .bind (keeps_text _) fun _ _ => .bind (keeps_newText _) fun text htext => ?_
      refine .bind (keeps_entry hS _ htext) fun shown hshown => ?_
      exact .bind (Signature.keeps_moduleValue _) fun _ hmodule => keeps_newList (by simp_all)

theorem keeps_autodocEntries (hS : S.loosePairs = true) (home : Option Value)
    (names : List Value) : (same S lax).Keeps (autodocEntries home names) := by
  induction names with
  | nil => exact .pure (meets_nil.mpr trivial)
  | cons name rest ih =>
    refine .bind (keeps_lookup? name home) fun found _ => ?_
    cases found with
    | some found =>
      exact .bind (keeps_autodocEntry hS found) fun _ hentry =>
        .bind ih fun _ hrest => .pure (meets_cons.mpr ⟨hentry, hrest⟩)
    | none => exact ih

@[grind ←] theorem keeps_autodoc (hS : S.loosePairs = true) (names : Value) (home : Option Value) :
    (same S lax).Keeps (autodoc names home) :=
  .bind (keeps_autodocEntries hS home _) fun _ h => keeps_newList h

end Introspection

namespace Service

@[grind .] theorem keeps_textArg (service : Service) (v : Value) :
    (same S lax).Keeps (service.textArg v) := by
  unfold textArg
  grind

@[grind .] theorem keeps_count (service : Service) (low high : Nat) (args : List Value) :
    (same S lax).Keeps (service.count low high args) := Primitive.keeps_checkCount _ _ _ _

@[grind .] theorem keeps_newTexts (texts : List String) : (same S lax).Keeps (newTexts texts) := by
  induction texts with
  | nil => exact .pure (meets_nil.mpr trivial)
  | cons text rest ih =>
    exact .bind (keeps_newText _) fun _ h => .bind ih fun _ hs => .pure (meets_cons.mpr ⟨h, hs⟩)

theorem keeps_modifyConnection (id : Nat) (f : Connection → Connection) :
    (same S lax).Keeps (Run.modifyConnection id f) :=
  same_keeps_modify fun _ hm => ⟨hm.keywords, hm.frames, hm.modules, hm.closures⟩

theorem keeps_appendTo (path text : String) : (same S lax).Keeps (Run.appendTo path text) := by
  refine .check (.faulty _) (same_mirrors_get fun m hm => ?_)
  cases m.disk.append path text with
  | ok disk =>
    refine keeps_same (fun _ hx => ?_) fun _ hx => by cases hx
    cases hx
    exact ⟨trivial, hm.keywords, hm.frames, hm.modules, hm.closures⟩
  | error problem => exact .faulty _

theorem keeps_startLogging (id : Nat) (path : String) :
    (same S lax).Keeps (Run.startLogging id path) :=
  .bind (keeps_modifyConnection id _) fun _ _ => .bind (keeps_appendTo path "") fun _ _ =>
    keeps_modifyConnection id _

variable {g g' : Engine}

theorem mirrors_evalReply (hg : g.Mirrors (same S lax) g') (home : Value) {form : Value}
    (hform : Meets S form) :
    (same S lax).Mirrors (evalReply g home form) (evalReply g' home form) :=
  same_mirrors_get fun _ _ => Reply.mirrors_capture (hg.eval hform _)

theorem mirrors_loadReply (hg : g.Mirrors (same S lax) g') (connection : Nat) (name : String) :
    (same S lax).Mirrors (loadReply g connection name) (loadReply g' connection name) := by
  refine .bind (same_mirrors_get fun _ _ => .pure trivial) fun c _ => same_mirrors_get fun m _ => ?_
  split
  · exact Reply.mirrors_capture (.bind (hg.load _ _) fun _ _ => .pure meets_void)
  · exact .pure trivial

theorem keeps_addPathReply (connection : Nat) (path : String) :
    (same S lax).Keeps (addPathReply connection path) := by
  refine Reply.mirrors_capture (same_mirrors_get fun m _ => .ite ?_ (.pure (meets_bool _)))
  exact .bind (keeps_modifyConnection connection _) fun _ _ => .pure (meets_bool _)

/-- An endless expansion stays endless; every other outcome is answered. -/
theorem mirrors_expansion (hg : g.Mirrors (same S lax) g') {form : Value} (hform : Meets S form)
    (everything : Bool) :
    (same S lax).Mirrors (expansion g form everything) (expansion g' form everything) := by
  refine mirrors_current fun id => same_mirrors_attempt (hg.expand hform _ _) (fun v hv => ?_)
    (fun stop => ?_) rfl
  · exact .bind (keeps_text v) fun _ _ => keeps_newText _
  · cases stop with
    | error e => exact Reply.keeps_value _
    | _ => exact .throw _

/-- Every service mirrors itself on machines that uphold a standard with loose pairs. -/
theorem mirrors_call (hS : S.loosePairs = true) (hg : g.Mirrors (same S lax) g') (connection : Nat)
    {args : List Value} (service : Service) (h : Meets S args) :
    (same S lax).Mirrors (service.call g connection args) (service.call g' connection args) := by
  have hfirst : Meets S (args.headD .void) := Primitive.meets_first h
  cases service with
  | eval =>
    refine .bind (keeps_count _ _ _ _) fun _ _ => ?_
    refine .bind (mirrors_evalReply hg _ ?_) fun r _ => r.keeps_value
    exact meets_list_getD h meets_void 1
  | loadFile =>
    exact .bind (keeps_count _ _ _ _) fun _ _ => .bind (keeps_textArg _ _) fun _ _ =>
      .bind (mirrors_loadReply hg _ _) fun r _ => r.keeps_value
  | addToLoadPath =>
    exact .bind (keeps_count _ _ _ _) fun _ _ => .bind (keeps_textArg _ _) fun _ _ =>
      .bind (keeps_addPathReply _ _) fun r _ => r.keeps_value
  | noValues => exact Reply.keeps_value _
  | completions | moduleCompletions =>
    exact .bind (keeps_count _ _ _ _) fun _ _ => .bind (keeps_textArg _ _) fun _ _ =>
      same_mirrors_get fun _ _ => .bind (keeps_newTexts _) fun _ hs => keeps_newList hs
  | moduleExports =>
    exact .bind (keeps_count _ _ _ _) fun _ _ =>
      Follows.bind (Introspection.keeps_moduleExports _) fun _ hd => keeps_ofDatum hd
  | autodoc => exact .bind (keeps_count _ _ _ _) fun _ _ => Introspection.keeps_autodoc hS _ _
  | symbolDocumentation =>
    exact .bind (keeps_count _ _ _ _) fun _ _ => Introspection.keeps_symbolDocumentation hS _ _
  | macroexpand => exact .bind (keeps_count _ _ _ _) fun _ _ => mirrors_expansion hg hfirst _
  | startLogging =>
    exact .bind (keeps_count _ _ _ _) fun _ _ => .bind (keeps_textArg _ _) fun _ _ =>
      .bind (keeps_startLogging _ _) fun _ _ => .pure (meets_bool _)

end Service

theorem keeps_openConnection (loadPath : List String) (logFile : Option String) :
    (same S lax).Keeps (Run.openConnection loadPath logFile) := by
  refine .bind (same_keeps_modifyGet fun _ hm =>
    ⟨trivial, hm.keywords, hm.frames, hm.modules, hm.closures⟩) fun id _ => ?_
  split
  · exact .ite (.pure trivial) (.bind (Service.keeps_startLogging id _) fun _ _ => .pure trivial)
  · exact .pure trivial

theorem keeps_bindServices (hS : S.services = true) (id : Nat) (services : List Service) :
    (same S lax).Keeps (Run.bindServices id services) := by
  induction services with
  | nil => exact .pure trivial
  | cons service rest ih =>
    refine .bind (Lawful.define _ _ _ ?_) fun _ _ => .bind (Lawful.exportNames _ _) fun _ _ => ih
    exact meets_object.mpr ⟨hS, meets_nil.mpr trivial⟩

/-- Where loose pairs are allowed, nothing has to be watched. -/
theorem Watch.passes_idle (hS : S.loosePairs = true) : Watch.Passes (same S lax) .idle .idle where
  machines _ := .inl rfl
  calls _ _ := .inl rfl
  templates hv := ⟨.inl rfl, fun _ => by rwa [same_standard, Standard.draft_eq hS] at hv⟩
  answers _ := .inl rfl
  services _ _ _ hg connection _ service h := Service.mirrors_call hS hg connection service h
  version _ := same_keeps_version _

/-- Evaluation mirrors itself on machines that uphold a standard with loose pairs. -/
theorem mirrors_ofAllowance (hS : S.loosePairs = true) (allowance : Nat) :
    Engine.Mirrors (same S lax) (.ofAllowance allowance) (.ofAllowance allowance) := by
  rw [← Engine.watched_idle]
  exact mirrors_performWatched (Watch.passes_idle hS) allowance

theorem upholds_after {α : Type} [Checkable α] {x : Run α} (hx : (same S lax).Keeps x)
    {m : Machine} (hm : m.Upholds S) : (x.after m).Upholds S := by
  rcases same_cases hx hm with ⟨-, n, hend, hn⟩ | ⟨-, hn, -⟩
  · rwa [Run.after_of_error hend]
  · exact hn

end LiveScheme
