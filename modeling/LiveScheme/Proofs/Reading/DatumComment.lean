import LiveScheme.Proofs.Reading.Boundary
import LiveScheme.Proofs.Reading.Names

/-!
# Datum comments between tokens

A datum comment drops the datum behind it and then waits for another one, which it hands over in its
own place. Put between two tokens it is therefore invisible in front of everything that begins a
datum, at whatever depth, and only there: in front of a closing bracket, in front of a dot and at
the end of a text the datum that it waits for does not come.
-/

namespace LiveScheme

open Text

namespace Token

def datumComment : Token := ⟨.datumComment, ['#', ';']⟩

/-- Neither a closing bracket nor a dot. -/
structure StartsDatum (t : Token) : Prop where
  not_close : t.kind ≠ .close
  not_dot : t ≠ dot

end Token

namespace Datum.Reading

variable {done forms : List Datum} {own stack : List Open} {t : Token} {ts us : List Token}

/-- What a token does above an open construct does not depend on what is open below it. -/
theorem step_of_step_append {o : Open} {r : Reading}
    (h : step ⟨done, o :: (own ++ stack)⟩ t = .ok r) : ∃ r', step ⟨[], o :: own⟩ t = .ok r' := by
  cases moves_of_step h with
  | opens o' htakes hstep => exact ⟨_, hstep [] (o :: own) (by cases o <;> exact htakes)⟩
  | hands d htakes hstep => exact ⟨_, hstep [] (o :: own) (by cases o <;> exact htakes)⟩
  | closes _ d hstep => exact ⟨_, hstep [] own⟩
  | turns _ o' hstep => exact ⟨_, hstep [] own⟩

/-- A construct that hands on the datum that it waits for can be left out below others. -/
theorem run_wanted_below (hs : Takes stack) (o : Open) :
    run ⟨done, o :: (own ++ .wanted :: stack)⟩ us = .ok ⟨forms, []⟩ ↔
      run ⟨done, o :: (own ++ stack)⟩ us = .ok ⟨forms, []⟩ := by
  induction us generalizing o own with
  | nil =>
    constructor <;>
    · intro h
      cases h
  | cons t us ih =>
    cases hstep : step ⟨[], o :: own⟩ t with
    | error e =>
      have hnone : ∀ stack, run ⟨done, o :: (own ++ stack)⟩ (t :: us) ≠ .ok ⟨forms, []⟩ := by
        intro stack h
        obtain ⟨r, hfirst, -⟩ := step_of_run_cons h
        obtain ⟨r', hself⟩ := step_of_step_append hfirst
        cases hstep.symm.trans hself
      exact ⟨fun h => absurd h (hnone _), fun h => absurd h (hnone _)⟩
    | ok r =>
      have hwanted : Takes (.wanted :: stack) := trivial
      have hfirst : ∀ {stack}, Takes stack →
          run ⟨done, o :: (own ++ stack)⟩ (t :: us) = run (r.inside done stack) us :=
        fun hs => run_cons_of_step (step_inside hs hstep done)
      rw [hfirst hwanted, hfirst hs]
      obtain ⟨o', own', rfl⟩ | ⟨x, rfl⟩ := step_cases hstep
      · exact ih o'
      -- The construct is closed, and its datum comes to the same place in both.
      · exact Iff.rfl

/-- Waiting for a datum differs from not waiting only in front of what begins none. -/
theorem run_wanted_iff (hs : Takes stack) :
    run ⟨done, .wanted :: stack⟩ us = .ok ⟨forms, []⟩ ↔
      run ⟨done, stack⟩ us = .ok ⟨forms, []⟩ ∧ ∃ t ∈ us.head?, t.StartsDatum := by
  cases us with
  | nil =>
    constructor
    · intro h
      cases h
    · rintro ⟨-, t, ht, -⟩
      cases ht
  | cons t us =>
    by_cases hclose : t.kind = .close
    · constructor
      · intro h
        obtain ⟨r, hstep, -⟩ := step_of_run_cons h
        simp [step, take, hclose, close] at hstep
      · rintro ⟨-, t', ht, hstarts⟩
        cases ht
        exact absurd hclose hstarts.not_close
    by_cases hdot : t = Token.dot
    · subst hdot
      constructor
      · intro h
        obtain ⟨r, hstep, -⟩ := step_of_run_cons h
        cases hstep
      · rintro ⟨-, t', ht, hstarts⟩
        cases ht
        exact absurd rfl hstarts.not_dot
    have hstarts : ∃ t' ∈ (t :: us).head?, t'.StartsDatum := ⟨t, rfl, hclose, hdot⟩
    rw [and_iff_left hstarts]
    have hwanted : Takes (.wanted :: stack) := trivial
    obtain ⟨o, ho⟩ | ⟨d, hd⟩ | ⟨e, he⟩ := take_cases hclose hdot
    · rw [run_cons_of_step ((step_of_takes hwanted t).trans (ho _)),
        run_cons_of_step ((step_of_takes hs t).trans (ho _))]
      exact @run_wanted_below done forms [] stack us hs o
    · rw [run_cons_of_step ((step_of_takes hwanted t).trans (hd _)),
        run_cons_of_step ((step_of_takes hs t).trans (hd _))]
      exact Iff.rfl
    · have hnone : ∀ {stack}, Takes stack → run ⟨done, stack⟩ (t :: us) ≠ .ok ⟨forms, []⟩ := by
        intro stack hs h
        obtain ⟨r, hstep, -⟩ := step_of_run_cons h
        cases ((step_of_takes hs t).trans (he _)).symm.trans hstep
      exact ⟨fun h => absurd h (hnone hwanted), fun h => absurd h (hnone hs)⟩

/-- A datum comment and its datum, anywhere among the tokens of a text. -/
theorem run_comment_iff {r : Reading} {d : Datum} (hd : Delivers ts d) :
    run r (Token.datumComment :: (ts ++ us)) = .ok ⟨forms, []⟩ ↔
      run r us = .ok ⟨forms, []⟩ ∧ ∃ t ∈ us.head?, t.StartsDatum := by
  obtain ⟨done, stack⟩ := r
  have hcomment : Takes stack → run ⟨done, stack⟩ (Token.datumComment :: (ts ++ us)) =
      run ⟨done, .wanted :: stack⟩ us := by
    intro hs
    have hstep : step ⟨done, stack⟩ Token.datumComment = .ok ⟨done, .ignored :: stack⟩ :=
      step_of_takes hs _
    rw [run_cons_of_step hstep, run_append, hd done (.ignored :: stack) trivial]
    rfl
  constructor
  · intro h
    obtain ⟨r, hstep, -⟩ := step_of_run_cons h
    have hs : Takes stack := takes_of_step (by decide) hstep
    rw [hcomment hs] at h
    exact (run_wanted_iff hs).mp h
  · rintro ⟨h, t, ht, hstarts⟩
    obtain ⟨more, rfl⟩ := List.head?_eq_some_iff.mp ht
    obtain ⟨r, hstep, -⟩ := step_of_run_cons h
    have hs : Takes stack := takes_of_step hstarts.not_close hstep
    rw [hcomment hs]
    exact (run_wanted_iff hs).mpr ⟨h, t, ht, hstarts⟩

end Datum.Reading

namespace Lexed

/-- The text ends in a comment that no line end closes. -/
inductive EndsInComment : List Char → Prop
  | here {cs body : List Char} : trimStart cs = ';' :: body → '\n' ∉ body → EndsInComment cs
  | later {cs rest : List Char} : (Token.scan (trimStart cs)).rest? = some rest →
    EndsInComment rest → EndsInComment cs

theorem EndsInComment.endsOpen {cs : List Char} (h : EndsInComment cs) : EndsOpen cs := by
  induction h with
  | here htrim hbody => exact .comment htrim hbody
  | later hrest _ ih => exact .later hrest ih

/-- A text that is the same tokens in front of every gap does not end in a comment: a bracket behind
it would be part of the comment. -/
theorem Yields.not_endsInComment {cs : List Char} {ts : List Token} (h : Yields cs ts) :
    ¬ EndsInComment cs := by
  intro hopen
  have hself : ofText cs = ⟨ts, none⟩ := by
    have hnone := ofText_of_yields h (List.forall_mem_nil _)
    rwa [List.append_nil] at hnone
  have hclosed : scanFrom 0 (cs ++ [')']) = ⟨ts ++ [Token.close], none⟩ := by
    have hall := h 0 [] [')'] (List.forall_mem_nil _) (atGap_close [])
    rwa [scanFrom_close, scanFrom_blank (List.forall_mem_nil _)] at hall
  have hnone : (scanFrom cs.length cs).failure = none := congrArg failure hself
  obtain ⟨us, hus, hsame | ⟨front, -, hfront⟩⟩ := hopen.endsOpen.scanFrom_append_close 0 hnone
  · have htokens : (scanFrom cs.length cs).tokens = ts := congrArg tokens hself
    rw [hclosed, hsame, htokens] at hus
    have hlength := congrArg (·.tokens.length) hus
    simp at hlength
  · rw [hclosed, hfront] at hus
    have hlast := congrArg (·.tokens.getLast?) hus
    simp [Token.close] at hlast

/-- A blank behind the text changes none of its tokens, unless it becomes the character that the
last one lacks. -/
inductive Spaced (cs : List Char) (ts : List Token) : List Token → Prop
  | same : Spaced cs ts ts
  | char (front : List Token) : ['#', '\\'] <:+ cs → ts = front ++ [⟨.word, ['#', '\\']⟩] →
    Spaced cs ts (front ++ [⟨.char, ['#', '\\', ' ']⟩])

theorem Spaced.of_suffix {cs rest : List Char} {ts us : List Token} (h : Spaced rest ts us)
    (hsuffix : rest <:+ cs) : Spaced cs ts us := by
  obtain _ | ⟨front, hbare, htokens⟩ := h
  · exact .same
  · exact .char front (hbare.trans hsuffix) htokens

theorem Spaced.cons {cs : List Char} {ts us : List Token} (h : Spaced cs ts us) (t : Token) :
    Spaced cs (t :: ts) (t :: us) := by
  obtain _ | ⟨front, hbare, rfl⟩ := h
  · exact .same
  · exact .char (t :: front) hbare rfl

/-- What follows a text behind a blank is scanned by itself. -/
theorem scanFrom_append_space {total : Nat} {cs : List Char}
    (hok : (scanFrom total cs).failure = none) (hopen : ¬ EndsInComment cs) :
    ∃ ts, Spaced cs (scanFrom total cs).tokens ts ∧
      ∀ total' more us, scanFrom total' more = ⟨us, none⟩ →
        scanFrom total' (cs ++ ' ' :: more) = ⟨ts ++ us, none⟩ := by
  have hscan : ∀ {cs}, ¬ EndsInComment cs → trimStart cs ≠ ['#', '\\'] →
      (Token.scan (trimStart cs)).rest?.isSome = true → ∀ more,
      Token.scan (trimStart (cs ++ ' ' :: more)) =
        (Token.scan (trimStart cs)).extend (' ' :: more) := by
    intro cs hopen hbare hs more
    refine scan_append_gap (Token.atGap_cons (by decide) more) (fun body htrim => ?_) hbare hs
    by_contra hbody
    exact hopen (.here htrim hbody)
  have hsuffix : ∀ {cs rest}, (Token.scan (trimStart cs)).rest? = some rest → rest <:+ cs :=
    fun hrest => (Token.rest_suffix hrest).trans (List.dropWhile_suffix _)
  fun_induction scanFrom total cs with
  | case1 cs hended =>
    refine ⟨[], .same, fun total' more us hmore => ?_⟩
    have htrim : trimStart more = trimStart (cs ++ ' ' :: more) := by
      rw [trimStart_append_of_blank (trimStart_of_ended hended)]
      rfl
    rw [scanFrom_of_trimStart htrim (by rw [hmore]), hmore]
    rfl
  | case2 cs rest hskipped ih =>
    have hrest : (Token.scan (trimStart cs)).rest? = some rest := by rw [hskipped]; rfl
    have hbare : trimStart cs ≠ ['#', '\\'] := fun htrim => by
      rw [htrim] at hskipped
      cases hskipped
    obtain ⟨ts, hspaced, hts⟩ := ih hok fun hmore => hopen (.later hrest hmore)
    refine ⟨ts, hspaced.of_suffix (hsuffix hrest), fun total' more us hmore => ?_⟩
    have hlong := hscan hopen hbare (by rw [hrest]; rfl) more
    rw [hskipped] at hlong
    rw [scanFrom_of_skipped hlong, hts total' more us hmore]
  | case3 cs t rest htoken ih =>
    have hrest : (Token.scan (trimStart cs)).rest? = some rest := by rw [htoken]; rfl
    by_cases hbare : trimStart cs = ['#', '\\']
    · have hlast : ['#', '\\'] <:+ cs := hbare ▸ List.dropWhile_suffix _
      have hword : Token.scan (trimStart cs) = .token ⟨.word, ['#', '\\']⟩ [] := by
        rw [hbare]
        rfl
      cases hword.symm.trans htoken
      rw [scanFrom_blank (List.forall_mem_nil _)]
      refine ⟨_, .char [] hlast rfl, fun total' more us hmore => ?_⟩
      have hlong : Token.scan (trimStart (cs ++ ' ' :: more)) =
          .token ⟨.char, ['#', '\\', ' ']⟩ more := by
        rw [trimStart_append_of_ne (by rw [hbare]; exact List.cons_ne_nil _ _), hbare]
        rfl
      rw [scanFrom_of_token hlong, hmore]
      rfl
    · obtain ⟨ts, hspaced, hts⟩ := ih hok fun hmore => hopen (.later hrest hmore)
      refine ⟨t :: ts, (hspaced.of_suffix (hsuffix hrest)).cons t, fun total' more us hmore => ?_⟩
      have hlong := hscan hopen hbare (by rw [hrest]; rfl) more
      rw [htoken] at hlong
      rw [scanFrom_of_token hlong, hts total' more us hmore]
      rfl
  | case4 cs gap hgap => cases hok
  | case5 cs hdangling => cases hok

theorem scanFrom_comment {total : Nat} {cs : List Char} {ts : List Token}
    (h : scanFrom total cs = ⟨ts, none⟩) :
    scanFrom total ('#' :: ';' :: ' ' :: cs) = ⟨Token.datumComment :: ts, none⟩ := by
  have hscan : Token.scan (trimStart ('#' :: ';' :: ' ' :: cs)) =
      .token Token.datumComment (' ' :: cs) := rfl
  have htrim : trimStart cs = trimStart (' ' :: cs) := rfl
  rw [scanFrom_of_token hscan, scanFrom_of_trimStart htrim (by rw [h]), h]
  rfl

/-- At a boundary, what is behind it is scanned by itself, also behind a blank; the tokens in front
of it are the same with the blank unless a misread name comes last among them. -/
theorem Boundary.scanFrom_space {front back : List Char} (hcut : Boundary back front)
    (hopen : ¬ EndsInComment front) (hok : (ofText (front ++ back)).failure = none) :
    (∀ total, scanFrom total back = ⟨(ofText back).tokens, none⟩) ∧
      ∃ ts, (∀ total more us, scanFrom total more = ⟨us, none⟩ →
          scanFrom total (front ++ ' ' :: more) = ⟨ts ++ us, none⟩) ∧
        ((∀ name ∈ misread, ¬ name.toList <:+ front) →
          (ofText (front ++ back)).tokens = ts ++ (ofText back).tokens) := by
  obtain ⟨hfront, fs, hfs, hsame⟩ := hcut.scanFrom_append front.length hok
  have hnone : (scanFrom (front ++ back).length back).failure = none :=
    (congrArg failure hfs).symm.trans hok
  have hself : ofText back = scanFrom (front ++ back).length back :=
    scanFrom_of_total _ hnone
  obtain ⟨ts, hspaced, hts⟩ := scanFrom_append_space hfront hopen
  refine ⟨fun total => ?_, ts, hts, fun hnames => ?_⟩
  · rw [scanFrom_of_total total hnone, hself, ← hnone]
  · have heq : fs = ts := by
      obtain rfl | ⟨w, hw, hlast⟩ := hsame
      · obtain _ | ⟨-, hbare, -⟩ := hspaced
        · rfl
        · exact absurd hbare (hnames "#\\" (by decide))
      · refine absurd ?_ (hnames _ (mem_misread_of_mem_boolWords hw))
        rwa [String.toList_ofList]
    rw [hself, ← heq]
    exact congrArg tokens hfs

end Lexed

namespace Datum

/-- A text without errors reads as what its tokens finish. -/
theorem readAll_ok_iff {source : String} {ts : List Token} {forms : List Datum}
    (h : Lexed.ofText source.toList = ⟨ts, none⟩) :
    readAll source = .ok forms ↔ Reading.start.run ts = .ok ⟨forms.reverse, []⟩ := by
  constructor
  · intro hread
    obtain ⟨done, hrun, -, rfl⟩ := readAll_eq_ok hread
    rwa [h, ← List.reverse_reverse done] at hrun
  · intro hrun
    have htokens : (Lexed.ofText source.toList).tokens = ts := congrArg Lexed.tokens h
    rw [← htokens] at hrun
    rw [readAll_of_run hrun, h]
    exact congrArg Except.ok (List.reverse_reverse forms)

/-- The text of one datum is the tokens of one in front of a blank as well. -/
theorem delivers_space_of_readAll {w : String} {d : Datum} (h : readAll w = .ok [d])
    (hopen : ¬ Lexed.EndsInComment w.toList) :
    ∃ ts e, Reading.Delivers ts e ∧ ∀ total more us, Lexed.scanFrom total more = ⟨us, none⟩ →
      Lexed.scanFrom total (w.toList ++ ' ' :: more) = ⟨ts ++ us, none⟩ := by
  obtain ⟨done, hrun, hok, hdone⟩ := readAll_eq_ok h
  obtain rfl : done = [d] := by
    rw [← List.reverse_reverse done, hdone]
    rfl
  obtain ⟨ts, hspaced, hts⟩ := Lexed.scanFrom_append_space hok hopen
  have hdelivers : ∃ e, Reading.Delivers ts e := by
    cases hspaced with
    | same => exact ⟨d, Reading.delivers_of_run hrun⟩
    | char _ _ htokens =>
      refine Reading.delivers_char_of_run (d := d) ' ' ?_
      rwa [← htokens]
  obtain ⟨e, he⟩ := hdelivers
  exact ⟨ts, e, he, hts⟩

variable {front back w : String} {forms : List Datum} {d : Datum}

/-- Whatever is in front, a datum comment among the tokens counts as nothing or spoils them. -/
theorem run_append_comment_iff {fs ds us : List Token} {e : Datum} (he : Reading.Delivers ds e) :
    Reading.start.run (fs ++ Token.datumComment :: (ds ++ us)) = .ok ⟨forms, []⟩ ↔
      Reading.start.run (fs ++ us) = .ok ⟨forms, []⟩ ∧ ∃ t ∈ us.head?, t.StartsDatum := by
  rw [Reading.run_append, Reading.run_append]
  cases Reading.start.run fs with
  | error e =>
    constructor
    · intro h
      cases h
    · rintro ⟨h, -⟩
      cases h
  | ok r => exact Reading.run_comment_iff he

/-- A datum comment with its datum, put between two lexemes of a readable text or at its end, reads
as a blank in its place exactly when something follows that begins a datum; otherwise the text
cannot be read. The blank in turn changes nothing, unless a name in front of it is misread there. -/
theorem readAll_comment_iff (hcut : Lexed.Boundary back.toList front.toList)
    (hopen : ¬ Lexed.EndsInComment front.toList) (h : readAll (front ++ back) = .ok forms)
    (hw : readAll w = .ok [d]) (hwopen : ¬ Lexed.EndsInComment w.toList) :
    (∀ data, readAll (front ++ " #; " ++ w ++ " " ++ back) = .ok data ↔
      readAll (front ++ " " ++ back) = .ok data ∧
        ∃ t ∈ (Lexed.ofText back.toList).tokens.head?, t.StartsDatum) ∧
    ((∀ name ∈ misread, ¬ name.toList <:+ front.toList) →
      readAll (front ++ " " ++ back) = .ok forms) := by
  obtain ⟨done, hrun, hok, rfl⟩ := readAll_eq_ok h
  rw [String.toList_append] at hrun hok
  obtain ⟨hback, fs, hfs, hnames⟩ := hcut.scanFrom_space hopen hok
  obtain ⟨ds, e, he, hds⟩ := delivers_space_of_readAll hw hwopen
  have hblank : Lexed.ofText (front ++ " " ++ back).toList =
      ⟨fs ++ (Lexed.ofText back.toList).tokens, none⟩ := by
    have hlexed := hfs (front ++ " " ++ back).toList.length _ _ (hback _)
    simpa [Lexed.ofText] using hlexed
  have hcomment : Lexed.ofText (front ++ " #; " ++ w ++ " " ++ back).toList =
      ⟨fs ++ Token.datumComment :: (ds ++ (Lexed.ofText back.toList).tokens), none⟩ := by
    have hlexed := hfs (front ++ " #; " ++ w ++ " " ++ back).toList.length _ _
      (Lexed.scanFrom_comment (hds _ _ _ (hback _)))
    simpa [Lexed.ofText] using hlexed
  constructor
  · intro data
    rw [readAll_ok_iff hcomment, readAll_ok_iff hblank]
    exact run_append_comment_iff he
  · intro hmisread
    rw [readAll_ok_iff hblank, List.reverse_reverse, ← hnames hmisread]
    exact hrun

theorem Readable.not_endsInComment (h : d.Readable) : ¬ Lexed.EndsInComment d.write.toList := by
  rw [write, String.toList_ofList]
  exact (Lexed.yields_chars h.lexical).not_endsInComment

/-- A comment is passed over in front of a datum of a list, and not in front of its end. -/
theorem readAll_comment_sample :
    readAll ("(a" ++ " #; " ++ sample.write ++ " " ++ " c)") = .ok [.list [.sym "a", .sym "c"]] ∧
      ∀ data, readAll ("(a" ++ " #; " ++ sample.write ++ " " ++ ")") ≠ .ok data := by
  have hopen : ¬ Lexed.EndsInComment "(a".toList := fun hend =>
    Lexed.not_endsOpen_of_not_mem (by decide) (by decide) hend.endsOpen
  have hw := readable_sample.readsBack.readAll
  have hwopen := readable_sample.not_endsInComment
  have hlater : ∀ back : String, (Token.scan ('a' :: back.toList)).rest? = some back.toList →
      Lexed.Boundary back.toList "(a".toList := by
    intro back hback
    have hend : Lexed.Boundary back.toList [] := .blanks (List.forall_mem_nil _)
    have hword : Lexed.Boundary back.toList ['a'] := .later (by exact hback) hend
    exact .later (by rfl) hword
  constructor
  · have hcut : Lexed.Boundary " c)".toList "(a".toList := hlater _ rfl
    have hread : readAll ("(a" ++ " c)") = .ok [.list [.sym "a", .sym "c"]] := by cbv
    have hback : Lexed.ofText " c)".toList = ⟨[⟨.word, ['c']⟩, Token.close], none⟩ := by cbv
    obtain ⟨hiff, hblank⟩ := readAll_comment_iff hcut hopen hread hw hwopen
    refine (hiff _).mpr ⟨hblank (by decide), ⟨.word, ['c']⟩, by rw [hback]; rfl, ?_⟩
    exact ⟨by decide, by decide⟩
  · intro data hdata
    have hcut : Lexed.Boundary ")".toList "(a".toList := hlater _ rfl
    have hread : readAll ("(a" ++ ")") = .ok [.list [.sym "a"]] := by cbv
    have hback : Lexed.ofText ")".toList = ⟨[Token.close], none⟩ := by cbv
    obtain ⟨hiff, -⟩ := readAll_comment_iff hcut hopen hread hw hwopen
    obtain ⟨-, t, ht, hstarts⟩ := (hiff data).mp hdata
    rw [hback] at ht
    cases ht
    exact hstarts.not_close rfl

end Datum

end LiveScheme
