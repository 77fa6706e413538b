import LiveScheme.Proofs.Reading.Prefix

/-!
# Texts inside constructs

A text that reads as one datum brings this datum to any place where its tokens stand. When it is
spliced into a list as it is, the bracket behind it closes the list, unless the text ends open: a
comment that no line end closes hides the bracket, and what begins like a character takes it.
-/

namespace LiveScheme

open Text

namespace Datum.Reading

/-- What a token does, wherever it is read: it opens a construct, hands over a datum, closes the
innermost construct, or makes it go on as another one. -/
inductive Moves (t : Token) : Reading → Reading → Prop
  | opens {done : List Datum} {stack : List Open} (o : Open) : Takes stack →
    (∀ done stack, Takes stack → step ⟨done, stack⟩ t = .ok ⟨done, o :: stack⟩) →
    Moves t ⟨done, stack⟩ ⟨done, o :: stack⟩
  | hands {done : List Datum} {stack : List Open} (d : Datum) : Takes stack →
    (∀ done stack, Takes stack → step ⟨done, stack⟩ t = .ok (deliver done d stack)) →
    Moves t ⟨done, stack⟩ (deliver done d stack)
  | closes {done : List Datum} {stack : List Open} (o : Open) (d : Datum) :
    (∀ done stack, step ⟨done, o :: stack⟩ t = .ok (deliver done d stack)) →
    Moves t ⟨done, o :: stack⟩ (deliver done d stack)
  | turns {done : List Datum} {stack : List Open} (o o' : Open) :
    (∀ done stack, step ⟨done, o :: stack⟩ t = .ok ⟨done, o' :: stack⟩) →
    Moves t ⟨done, o :: stack⟩ ⟨done, o' :: stack⟩

variable {r r' : Reading} {t : Token}

/-- A token that begins a datum does the same wherever a datum can stand. -/
theorem take_cases (hclose : t.kind ≠ .close) (hdot : t ≠ Token.dot) :
    (∃ o, ∀ r : Reading, take r t = .ok ⟨r.done, o :: r.stack⟩) ∨
      (∃ d, ∀ r : Reading, take r t = .ok (deliver r.done d r.stack)) ∨
      ∃ e, ∀ r : Reading, take r t = .error e := by
  cases taking t with
  | opens o _ htake => exact .inl ⟨o, htake⟩
  | denotes x _ htake =>
    cases x with
    | ok d => exact .inr (.inl ⟨d, htake⟩)
    | error e => exact .inr (.inr ⟨e, htake⟩)
  | closes hclosing _ => exact absurd hclosing hclose
  | dots hdotted _ => exact absurd hdotted hdot

theorem moves_of_take (hs : Takes r.stack) (h : take r t = .ok r') : Moves t r r' := by
  obtain ⟨done, stack⟩ := r
  by_cases hclose : t.kind = .close
  · simp only [take, hclose] at h
    have hstep : ∀ done stack, Takes stack → step ⟨done, stack⟩ t = close ⟨done, stack⟩ t.text :=
      fun done stack hs => by rw [step_of_takes hs, take, hclose]
    cases stack with
    | nil => cases h
    | cons o rest =>
      cases o with
      | list items =>
        cases h
        exact .closes _ _ fun done rest => hstep done (.list items :: rest) hs
      | vector items =>
        cases h
        exact .closes _ _ fun done rest => hstep done (.vector items :: rest) hs
      | sealed items tail => exact hs.elim
      | _ => cases h
  by_cases hdot : t = Token.dot
  · subst hdot
    change dot ⟨done, stack⟩ = .ok r' at h
    cases stack with
    | nil => cases h
    | cons o rest =>
      cases o with
      | list items =>
        cases items with
        | nil => cases h
        | cons x items => cases h; exact .turns _ _ fun _ _ => rfl
      | _ => cases h
  · obtain ⟨o, ho⟩ | ⟨d, hd⟩ | ⟨e, he⟩ := take_cases hclose hdot
    · cases (ho _).symm.trans h
      exact .opens o hs fun done stack hs => (step_of_takes hs _).trans (ho _)
    · cases (hd _).symm.trans h
      exact .hands d hs fun done stack hs => (step_of_takes hs _).trans (hd _)
    · cases (he _).symm.trans h

/-- Only a bracket can follow the tail of a dotted list. -/
theorem takes_of_step (hk : t.kind ≠ .close) (h : step r t = .ok r') : Takes r.stack := by
  obtain ⟨done, stack⟩ := r
  cases stack with
  | nil => trivial
  | cons o rest =>
    cases o with
    | sealed items tail => cases (if_neg hk).symm.trans h
    | _ => trivial

theorem moves_of_step (h : step r t = .ok r') : Moves t r r' := by
  by_cases hs : Takes r.stack
  · exact moves_of_take hs (step_of_takes hs t ▸ h)
  · have hk : t.kind = .close := by_contra fun hk => hs (takes_of_step hk h)
    obtain ⟨done, stack⟩ := r
    cases stack with
    | nil => exact absurd trivial hs
    | cons o rest =>
      cases o with
      | sealed items tail =>
        have hstep : ∀ done rest, step ⟨done, .sealed items tail :: rest⟩ t =
            .ok (deliver done (Node.attach () items.reverse tail) rest) :=
          fun done rest => if_pos hk
        cases (hstep done rest).symm.trans h
        exact .closes _ _ hstep
      | _ => exact absurd trivial hs

/-- A datum that is handed over leaves something open or is done. -/
theorem deliver_cases (done : List Datum) (d : Datum) (stack : List Open) :
    (∃ o rest, deliver done d stack = ⟨done, o :: rest⟩) ∨
      ∃ x, deliver done d stack = ⟨x :: done, []⟩ := by
  fun_induction deliver done d stack with
  | case1 d => exact .inr ⟨d, rfl⟩
  | case4 _ _ _ ih | case6 _ _ ih => exact ih
  | _ => exact .inl ⟨_, _, rfl⟩

/-- So does every token. -/
theorem step_cases (h : step r t = .ok r') :
    (∃ o rest, r' = ⟨r.done, o :: rest⟩) ∨ ∃ x, r' = ⟨x :: r.done, []⟩ := by
  cases moves_of_step h with
  | opens o | turns _ o => exact .inl ⟨_, _, rfl⟩
  | hands d | closes o d => exact deliver_cases _ _ _

/-- What is handed over instead of another datum comes to the same place. -/
theorem deliver_of_deliver {done : List Datum} {x y d : Datum} {stack : List Open}
    (h : deliver done x stack = ⟨[d], []⟩) : ∃ e, deliver done y stack = ⟨[e], []⟩ := by
  induction stack generalizing x y with
  | nil =>
    cases h
    exact ⟨y, rfl⟩
  | cons o rest ih =>
    cases o with
    | quoted name => exact ih h
    | wanted => exact ih h
    | _ => cases h

/-- A reading of its own at a place of another one: what it finishes is handed over there. -/
def inside (done : List Datum) (stack : List Open) (r : Reading) : Reading :=
  match r.done with
  | [] => ⟨done, r.stack ++ stack⟩
  | d :: _ => deliver done d stack

theorem deliver_append (done : List Datum) (d : Datum) (own stack : List Open) :
    deliver done d (own ++ stack) = (deliver [] d own).inside done stack := by
  induction own generalizing d with
  | nil => rfl
  | cons o rest ih =>
    cases o with
    | quoted name => exact ih _
    | wanted => exact ih _
    | _ => rfl

theorem takes_append {own stack : List Open} (hown : Takes own) (hs : Takes stack) :
    Takes (own ++ stack) := by
  cases own with
  | nil => exact hs
  | cons o rest => cases o <;> exact hown

theorem step_inside {own stack : List Open} (hs : Takes stack) (h : step ⟨[], own⟩ t = .ok r')
    (done : List Datum) : step ⟨done, own ++ stack⟩ t = .ok (r'.inside done stack) := by
  cases moves_of_step h with
  | opens o hown hstep => exact hstep done _ (takes_append hown hs)
  | hands d hown hstep =>
    rw [hstep done _ (takes_append hown hs), deliver_append]
  | closes o d hstep => exact (hstep done _).trans (congrArg _ (deliver_append ..))
  | turns o o' hstep => exact hstep done _

/-- Some token leaves something done or something open. -/
theorem eq_nil_of_run {ts : List Token} (h : run r ts = .ok start) : ts = [] := by
  induction ts generalizing r with
  | nil => rfl
  | cons t ts ih =>
    obtain ⟨r', hstep, hrun⟩ := step_of_run_cons h
    cases ih hrun
    cases hrun
    obtain ⟨o, rest, hopen⟩ | ⟨x, hdone⟩ := step_cases hstep
    · cases congrArg Reading.stack hopen
    · cases congrArg Reading.done hdone

/-- Nothing follows a datum that is all there is. -/
theorem eq_nil_of_run_done {ts : List Token} {x d : Datum}
    (h : run ⟨[x], []⟩ ts = .ok ⟨[d], []⟩) : ts = [] ∧ x = d := by
  have honto := run_onto [x] start ts
  change run ⟨[x], []⟩ ts = _ at honto
  rw [h] at honto
  cases hown : run start ts with
  | error e => rw [hown] at honto; cases honto
  | ok own =>
    obtain ⟨done, stack⟩ := own
    rw [hown] at honto
    have hreading : (⟨[d], []⟩ : Reading) = ⟨done ++ [x], stack⟩ := Except.ok.inj honto
    obtain ⟨hdone, hstack⟩ := Reading.mk.inj hreading
    cases hstack
    cases done with
    | nil =>
      cases hdone
      exact ⟨eq_nil_of_run hown, rfl⟩
    | cons y more => simp at hdone

theorem run_inside {ts : List Token} {own stack : List Open} {d : Datum} (hs : Takes stack)
    (h : run ⟨[], own⟩ ts = .ok ⟨[d], []⟩) (done : List Datum) :
    run ⟨done, own ++ stack⟩ ts = .ok (deliver done d stack) := by
  induction ts generalizing own with
  | nil => cases h
  | cons t ts ih =>
    obtain ⟨r', hstep, hrun⟩ := step_of_run_cons h
    rw [run_cons_of_step (step_inside hs hstep done)]
    obtain ⟨o, rest, rfl⟩ | ⟨x, rfl⟩ := step_cases hstep
    · exact ih hrun
    · obtain ⟨rfl, rfl⟩ := eq_nil_of_run_done hrun
      rfl

/-- Tokens that read as one datum alone deliver it at any place. -/
theorem delivers_of_run {ts : List Token} {d : Datum} (h : run start ts = .ok ⟨[d], []⟩) :
    Delivers ts d := fun done _ hs => run_inside hs h done

/-- A character in place of the beginning of one is delivered at its place. -/
theorem delivers_char_of_run {front : List Token} {d : Datum} (c : Char)
    (h : run start (front ++ [⟨.word, ['#', '\\']⟩]) = .ok ⟨[d], []⟩) :
    ∃ e, Delivers (front ++ [⟨.char, ['#', '\\', c]⟩]) e := by
  rw [run_append] at h
  cases hfront : run start front with
  | error e =>
    rw [hfront] at h
    cases h
  | ok r =>
    rw [hfront] at h
    obtain ⟨r', hstep, hdone⟩ := step_of_run_cons h
    cases hdone
    have hs : Takes r.stack := takes_of_step (by decide) hstep
    have hdeliver : deliver r.done (.sym "#\\") r.stack = ⟨[d], []⟩ :=
      Except.ok.inj ((step_of_takes hs _).symm.trans hstep)
    obtain ⟨e, he⟩ := deliver_of_deliver (y := .char c) hdeliver
    refine ⟨e, delivers_of_run ?_⟩
    rw [run_append, hfront]
    exact run_cons_of_step ((step_of_takes hs _).trans (congrArg Except.ok he))

end Datum.Reading

namespace Lexed

/-- The last lexeme of a text takes in what follows it: a comment that no line end closes, or what
begins like a character and has none. -/
inductive EndsOpen : List Char → Prop
  | comment {cs body : List Char} : trimStart cs = ';' :: body → '\n' ∉ body → EndsOpen cs
  | bare {cs : List Char} : trimStart cs = ['#', '\\'] → EndsOpen cs
  | later {cs rest : List Char} : (Token.scan (trimStart cs)).rest? = some rest → EndsOpen rest →
    EndsOpen cs

variable {total : Nat} {cs rest : List Char}

theorem not_endsOpen_nil : ¬ EndsOpen [] := by
  rintro (⟨heq, -⟩ | heq | ⟨heq, -⟩) <;> cases heq

/-- A line comment goes on to the end of its line or of the text. -/
theorem scan_comment_append {body : List Char} (h : '\n' ∉ body)
    (hrest : ∀ c ∈ rest.head?, c = '\n') :
    Token.scan (';' :: (body ++ rest)) = .skipped rest := by
  have hall : ∀ c ∈ body, (c != '\n') = true := fun c hc => by
    rw [bne_iff_ne]
    rintro rfl
    exact h hc
  have hend : ∀ c ∈ rest.head?, (c != '\n') = false := fun c hc => by
    rw [hrest c hc]
    rfl
  exact congrArg Token.Lexeme.skipped (Token.dropWhile_append_of_all hall hend)

theorem scan_comment {body : List Char} (h : '\n' ∉ body) :
    Token.scan (';' :: body) = .skipped [] := by
  have hend : ∀ c ∈ ([] : List Char).head?, c = '\n' := nofun
  have hscan := scan_comment_append h hend
  rwa [List.append_nil] at hscan

/-- A gap behind a text ends its first lexeme, unless this takes in what follows it. -/
theorem scan_append_gap {gap : List Char} (hgap : Token.AtGap gap)
    (hcomment : ∀ body, trimStart cs = ';' :: body → '\n' ∈ body)
    (hbare : trimStart cs ≠ ['#', '\\'])
    (hs : (Token.scan (trimStart cs)).rest?.isSome = true) :
    Token.scan (trimStart (cs ++ gap)) = (Token.scan (trimStart cs)).extend gap := by
  cases htrim : trimStart cs with
  | nil =>
    rw [htrim] at hs
    cases hs
  | cons c more =>
    rw [trimStart_append_of_ne (by rw [htrim]; exact List.cons_ne_nil c more), htrim]
    refine Token.scan_extend (.inr hgap) ?_ (htrim ▸ hbare) (htrim ▸ hs)
    rintro rfl
    exact hcomment more htrim

theorem trimStart_of_ended (h : Token.scan (trimStart cs) = .ended) : trimStart cs = [] := by
  rcases Token.scan_cases (trimStart cs) with hnil | ⟨gap, hgap⟩ | hrest | ⟨hdangling, -⟩
  · exact hnil
  · rw [h] at hgap
    cases hgap
  · rw [h] at hrest
    cases hrest
  · rw [h] at hdangling
    cases hdangling

/-- A bracket behind a text that does not end open is a token of its own. -/
theorem scanFrom_append_close (total' : Nat) (hok : (scanFrom total cs).failure = none)
    (h : ¬ EndsOpen cs) :
    scanFrom total' (cs ++ [')']) = ⟨(scanFrom total cs).tokens ++ [Token.close], none⟩ := by
  have hscan : ∀ {cs}, ¬ EndsOpen cs → (Token.scan (trimStart cs)).rest?.isSome = true →
      Token.scan (trimStart (cs ++ [')'])) = (Token.scan (trimStart cs)).extend [')'] :=
    fun h => scan_append_gap (atGap_close [])
      (fun body heq => by_contra fun hbody => h (.comment heq hbody)) fun heq => h (.bare heq)
  fun_induction scanFrom total cs with
  | case1 cs hended =>
    have hclose : Token.scan (trimStart (cs ++ [')'])) = .token Token.close [] := by
      rw [trimStart_append_of_blank (trimStart_of_ended hended)]
      rfl
    rw [scanFrom_of_token hclose, scanFrom_blank (List.forall_mem_nil _)]
    rfl
  | case2 cs rest hskipped ih =>
    have hmore := hscan h (by rw [hskipped]; rfl)
    rw [hskipped] at hmore
    rw [scanFrom_of_skipped hmore]
    exact ih hok fun hrest => h (.later (by rw [hskipped]; rfl) hrest)
  | case3 cs t rest htoken ih =>
    have hmore := hscan h (by rw [htoken]; rfl)
    rw [htoken] at hmore
    rw [scanFrom_of_token hmore, ih hok fun hrest => h (.later (by rw [htoken]; rfl) hrest)]
    rfl
  | case4 cs gap hgap => cases hok
  | case5 cs hdangling => cases hok

/-- A text that ends open takes in a bracket behind it: its tokens stay as they are, or the last one
becomes a character. -/
theorem EndsOpen.scanFrom_append_close (h : EndsOpen cs) (total' : Nat)
    (hok : (scanFrom total cs).failure = none) : ∃ ts, scanFrom total' (cs ++ [')']) = ⟨ts, none⟩ ∧
      (ts = (scanFrom total cs).tokens ∨ ∃ front,
        (scanFrom total cs).tokens = front ++ [⟨.word, ['#', '\\']⟩] ∧
        ts = front ++ [⟨.char, ['#', '\\', ')']⟩]) := by
  have hnil : ∀ total, scanFrom total [] = ⟨[], none⟩ := fun _ => scanFrom_blank (by simp)
  induction h with
  | @comment cs body htrim hbody =>
    have hne : trimStart cs ≠ [] := by rw [htrim]; exact List.cons_ne_nil _ _
    have hcomment := scan_comment hbody
    have hmore : Token.scan (trimStart (cs ++ [')'])) = .skipped [] := by
      rw [trimStart_append_of_ne hne, htrim]
      exact scan_comment (by simpa using hbody)
    rw [← htrim] at hcomment
    rw [scanFrom_of_skipped hcomment, scanFrom_of_skipped hmore, hnil, hnil]
    exact ⟨[], rfl, .inl rfl⟩
  | @bare cs htrim =>
    have hne : trimStart cs ≠ [] := by rw [htrim]; exact List.cons_ne_nil _ _
    have hword : Token.scan (trimStart cs) = .token ⟨.word, ['#', '\\']⟩ [] := by
      rw [htrim]
      rfl
    have hchar : Token.scan (trimStart (cs ++ [')'])) = .token ⟨.char, ['#', '\\', ')']⟩ [] := by
      rw [trimStart_append_of_ne hne, htrim]
      rfl
    rw [scanFrom_of_token hword, scanFrom_of_token hchar, hnil, hnil]
    exact ⟨_, rfl, .inr ⟨[], rfl, rfl⟩⟩
  | @later cs rest hrest hopen ih =>
    have hsome : rest ≠ [] := fun heq => not_endsOpen_nil (heq ▸ hopen)
    have hcomment : ∀ body, trimStart cs = ';' :: body → '\n' ∈ body := fun body htrim =>
      by_contra fun hbody => by
        rw [htrim, scan_comment hbody] at hrest
        exact hsome (Option.some.inj hrest).symm
    have hbare : trimStart cs ≠ ['#', '\\'] := fun htrim => by
      rw [htrim] at hrest
      exact hsome (Option.some.inj hrest).symm
    have hscan := scan_append_gap (atGap_close []) hcomment hbare (by rw [hrest]; rfl)
    obtain ⟨us, hself, hlong⟩ := scanFrom_of_extend hscan hrest
    rw [hself] at hok ⊢
    rw [hlong]
    obtain ⟨ts, hts, hsame | ⟨front, htokens, hfront⟩⟩ := ih hok
    · exact ⟨us ++ ts, by rw [hts]; rfl, .inl (by rw [hsame]; rfl)⟩
    · refine ⟨us ++ ts, by rw [hts]; rfl, .inr ⟨us ++ front, ?_, ?_⟩⟩
      · rw [prepend, htokens, List.append_assoc]
      · rw [hfront, List.append_assoc]

/-- A text without semicolons that does not end with a number sign and a backslash. -/
theorem not_endsOpen_of_not_mem (hsemi : ';' ∉ cs) (hbare : ¬ ['#', '\\'] <:+ cs) :
    ¬ EndsOpen cs := by
  have hsuffix : ∀ cs, trimStart cs <:+ cs := fun cs => List.dropWhile_suffix _
  intro h
  induction h with
  | comment htrim _ => exact hsemi ((hsuffix _).subset (by rw [htrim]; exact List.mem_cons_self))
  | bare htrim => exact hbare (htrim ▸ hsuffix _)
  | later hrest _ ih =>
    have hback := (Token.rest_suffix hrest).trans (hsuffix _)
    exact ih (fun hmem => hsemi (hback.subset hmem)) fun hlast => hbare (hlast.trans hback)

end Lexed

namespace Datum

/-- The tokens of a text that reads as one datum deliver it, and those of the text with a bracket
behind it deliver something, with or without the bracket. -/
theorem scanFrom_close_of_readAll {source : String} {d : Datum} (h : readAll source = .ok [d])
    (total : Nat) :
    (¬ Lexed.EndsOpen source.toList → ∃ ts,
      Lexed.scanFrom total (source.toList ++ [')']) = ⟨ts ++ [Token.close], none⟩ ∧
        Reading.Delivers ts d) ∧
    (Lexed.EndsOpen source.toList → ∃ ts e,
      Lexed.scanFrom total (source.toList ++ [')']) = ⟨ts, none⟩ ∧ Reading.Delivers ts e) := by
  obtain ⟨done, hrun, hok, hforms⟩ := readAll_eq_ok h
  have hdone : done = [d] := by rw [← List.reverse_reverse done, hforms, List.reverse_singleton]
  subst hdone
  refine ⟨fun hclosed => ?_, fun hopen => ?_⟩
  · exact ⟨_, Lexed.scanFrom_append_close total hok hclosed, Reading.delivers_of_run hrun⟩
  · obtain ⟨ts, hts, rfl | ⟨front, htokens, rfl⟩⟩ := hopen.scanFrom_append_close total hok
    · exact ⟨_, d, hts, Reading.delivers_of_run hrun⟩
    · rw [Lexed.ofText, htokens] at hrun
      obtain ⟨e, he⟩ := Reading.delivers_char_of_run ')' hrun
      exact ⟨_, e, hts, he⟩

end Datum

end LiveScheme
