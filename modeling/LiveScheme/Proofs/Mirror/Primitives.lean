import LiveScheme.Proofs.Mirror.Engines

/-!
# Built-in procedures on mirroring engines

Every built-in procedure but the one that answers the version mirrors itself when its engines mirror
each other. Most of them only look at their arguments and make new objects; pairs are made in normal
form throughout.
-/

set_option linter.unusedSectionVars false

namespace LiveScheme

open Link

variable {L : Link} [L.Lawful]

namespace Primitive

section Arguments

@[grind .] theorem keeps_checkCount (who : String) (low : Nat) (high : Option Nat)
    (args : List Value) : L.Keeps (checkCount who low high args) := by
  unfold checkCount
  dsimp only
  grind

@[grind .] theorem keeps_bad {α : Type} [Checkable α] (who what : String) (v : Value) :
    L.Keeps (bad who what v : Run α) := by
  unfold bad
  grind

@[grind .] theorem keeps_numbers (who : String) (args : List Value) :
    L.Keeps (numbers who args) := by
  induction args with
  | nil => exact .pure (meets_nil.mpr trivial)
  | cons v rest ih =>
    unfold numbers
    grind

@[grind ←] theorem keeps_listArg (who : String) {v : Value} (hv : Meets L.standard v) :
    L.Keeps (listArg who v) := by
  unfold listArg
  grind

@[grind ←] theorem keeps_listArgs (who : String) {args : List Value}
    (hargs : Meets L.standard args) : L.Keeps (listArgs who args) := by
  induction args with
  | nil => exact .pure (meets_nil.mpr trivial)
  | cons v rest ih =>
    obtain ⟨hv, hrest⟩ := meets_cons.mp hargs
    exact .bind (keeps_listArg who hv) fun _ h => .bind (ih hrest) fun _ hs =>
      .pure (meets_cons.mpr ⟨h, hs⟩)

@[grind .] theorem keeps_textArg (who : String) (v : Value) : L.Keeps (textArg who v) := by
  unfold textArg
  grind

@[grind .] theorem keeps_textArgs (who : String) (args : List Value) :
    L.Keeps (textArgs who args) := by
  induction args with
  | nil => exact .pure (meets_nil.mpr trivial)
  | cons v rest ih =>
    exact .bind (keeps_textArg who v) fun _ _ => .bind ih fun _ _ => .pure (meets_plains _)

end Arguments

section Arithmetic

@[grind .] theorem keeps_foldNumbers (op : Number → Number → Except Fault Number) (start : Number)
    (ns : List Number) : L.Keeps (foldNumbers op start ns) := by
  induction ns generalizing start with
  | nil => exact .pure trivial
  | cons n rest ih => exact .bind (keeps_ofFault fun _ _ => trivial) fun _ _ => ih _

@[grind .] theorem keeps_divideBy (n : Number) (ds : List Number) : L.Keeps (divideBy n ds) := by
  induction ds generalizing n with
  | nil => exact .pure trivial
  | cons d rest ih =>
    exact .ite (.fail _) (.bind (keeps_ofFault fun _ _ => trivial) fun _ _ => ih _)

@[grind .] theorem keeps_isWhole (v : Value) : L.Keeps (isWhole v) := by
  unfold isWhole
  grind

@[grind ←] theorem keeps_predicate (who : String) {test : Value → Run Bool}
    (ht : ∀ v, L.Keeps (test v)) (args : List Value) : L.Keeps (predicate who test args) := by
  unfold predicate
  grind

@[grind .] theorem keeps_sum (args : List Value) : L.Keeps (sum args) := by
  unfold sum
  grind

@[grind .] theorem keeps_product (args : List Value) : L.Keeps (product args) := by
  unfold product
  grind

@[grind .] theorem keeps_difference (args : List Value) : L.Keeps (difference args) := by
  unfold difference
  grind

@[grind .] theorem keeps_ratio (args : List Value) : L.Keeps (ratio args) := by
  unfold ratio
  grind

@[grind .] theorem keeps_integerDivision (who : String)
    (op : Number → Number → Except Fault Number) (args : List Value) :
    L.Keeps (integerDivision who op args) := by
  unfold integerDivision
  grind

@[grind .] theorem keeps_comparison (who : String) (holds : Ordering → Bool) (args : List Value) :
    L.Keeps (comparison who holds args) := by
  unfold comparison
  grind

@[grind .] theorem keeps_magnitude (args : List Value) : L.Keeps (magnitude args) := by
  unfold magnitude
  grind

theorem meets_best {S : Standard} (beats : Ordering → Bool) {v : Value} (n : Number)
    {rest : List (Value × Number)} (hv : Meets S v) (hrest : Meets S rest) :
    Meets S (best beats v n rest) := by
  induction rest generalizing v n with
  | nil => exact hv
  | cons entry rest ih =>
    obtain ⟨hentry, hrest⟩ := meets_cons.mp hrest
    unfold best
    split
    · exact ih _ hentry.1 hrest
    · exact ih _ hv hrest

@[grind ←] theorem keeps_extreme (who : String) (beats : Ordering → Bool) {args : List Value}
    (hargs : Meets L.standard args) : L.Keeps (extreme who beats args) := by
  refine .bind (keeps_checkCount _ _ _ _) fun _ _ => .bind (keeps_numbers _ _) fun ns _ => ?_
  have hzip : Meets L.standard (args.zip ns) := fun entry h =>
    ⟨hargs _ (List.of_mem_zip (a := entry.1) (b := entry.2) h).1, trivial⟩
  split
  · next v n rest heq =>
    rw [heq] at hzip
    obtain ⟨hv, hrest⟩ := meets_cons.mp hzip
    exact .pure (meets_best _ _ hv.1 hrest)
  · exact .pure (meets_int _)

end Arithmetic

section Pairs

@[grind ←] theorem keeps_carOf {v : Value} (hv : Meets L.standard v) : L.Keeps (carOf v) := by
  unfold carOf
  grind

@[grind ←] theorem keeps_cdrOf {v : Value} (hv : Meets L.standard v) : L.Keeps (cdrOf v) := by
  unfold cdrOf
  split
  · exact keeps_newList (meets_cons.mp (meets_list.mp hv)).2
  · next tag head x rest tail =>
    obtain ⟨hpair, hitems, htail⟩ := meets_improper.mp hv
    refine keeps_newImproper fun t => meets_improper.mpr ⟨?_, (meets_cons.mp hitems).2, htail⟩
    exact hpair.imp_right fun h => ⟨List.cons_ne_nil _ _, h.2⟩
  · exact .pure (meets_improper.mp hv).2.2
  · exact keeps_bad _ _ _

@[grind ←] theorem keeps_appendTo {items : List Value} {args : List Value}
    (hitems : Meets L.standard items) (hargs : Meets L.standard args) :
    L.Keeps (Primitive.appendTo items args) := by
  fun_induction Primitive.appendTo items args with
  | case1 items => exact keeps_newList hitems
  | case2 items tag more =>
    exact keeps_newAttached fun t => meets_attach (.inr (.inr rfl)) hitems (meets_cons.mp hargs).1
  | case3 items tag more tail =>
    exact keeps_newAttached fun t => meets_attach (.inr (.inr rfl)) hitems (meets_cons.mp hargs).1
  | case4 items tail hlist himproper hempty => exact .pure (meets_cons.mp hargs).1
  | case5 items tail hlist himproper hne =>
    refine keeps_newAttached fun t => meets_attach (.inr (.inl ?_)) hitems (meets_cons.mp hargs).1
    exact fun h => hne (List.isEmpty_iff.mpr h)
  | case6 items v rest hrest ih =>
    obtain ⟨hv, hargs⟩ := meets_cons.mp hargs
    exact .bind (keeps_listArg _ hv) fun more hmore =>
      ih more (meets_append.mpr ⟨hitems, hmore⟩) hargs

@[grind ←] theorem keeps_findEntry (same : Value → Value → Bool) (x : Value)
    {entries : List Value} (h : Meets L.standard entries) : L.Keeps (findEntry same x entries) := by
  induction entries with
  | nil => exact .pure (meets_bool _)
  | cons entry rest ih =>
    obtain ⟨hentry, hrest⟩ := meets_cons.mp h
    exact .bind (keeps_carOf hentry) fun _ _ => .ite (.pure hentry) (ih hrest)

@[grind .] theorem keeps_newTexts (cs : List Char) : L.Keeps (newTexts cs) := by
  induction cs with
  | nil => exact .pure (meets_nil.mpr trivial)
  | cons c rest ih =>
    exact .bind (keeps_newText _) fun _ h => .bind ih fun _ hs => .pure (meets_cons.mpr ⟨h, hs⟩)

@[grind ←] theorem meets_first {S : Standard} {args : List Value} (h : Meets S args) :
    Meets S (args.headD .void) := meets_headD h meets_void

@[grind ←] theorem keeps_cons {args : List Value} (h : Meets L.standard args) :
    L.Keeps (Primitive.cons args) := by
  refine .bind (keeps_checkCount _ _ _ _) fun _ _ => ?_
  split
  · next a d =>
    obtain ⟨ha, hd⟩ := meets_cons.mp h
    exact keeps_newAttached fun t => meets_attach (.inr (.inl (List.cons_ne_nil _ _)))
      (meets_cons.mpr ⟨ha, meets_nil.mpr trivial⟩) (meets_cons.mp hd).1
  · exact .pure meets_void

@[grind ←] theorem keeps_car {args : List Value} (h : Meets L.standard args) :
    L.Keeps (Primitive.car args) := by
  unfold Primitive.car
  grind

@[grind ←] theorem keeps_cdr {args : List Value} (h : Meets L.standard args) :
    L.Keeps (Primitive.cdr args) := by
  unfold Primitive.cdr
  grind

@[grind ←] theorem keeps_cadr {args : List Value} (h : Meets L.standard args) :
    L.Keeps (Primitive.cadr args) := by
  unfold Primitive.cadr
  grind

@[grind ←] theorem keeps_cddr {args : List Value} (h : Meets L.standard args) :
    L.Keeps (Primitive.cddr args) := by
  unfold Primitive.cddr
  grind

@[grind ←] theorem keeps_caar {args : List Value} (h : Meets L.standard args) :
    L.Keeps (Primitive.caar args) := by
  unfold Primitive.caar
  grind

@[grind ←] theorem keeps_length {args : List Value} (h : Meets L.standard args) :
    L.Keeps (Primitive.length args) := by
  unfold Primitive.length
  grind

@[grind ←] theorem keeps_reverse {args : List Value} (h : Meets L.standard args) :
    L.Keeps (Primitive.reverse args) := by
  unfold Primitive.reverse
  grind

@[grind ←] theorem keeps_listRef {args : List Value} (h : Meets L.standard args) :
    L.Keeps (Primitive.listRef args) := by
  have hitem := fun (items : List Value) hitems => meets_list_getD (l := items) hitems
    (meets_void (S := L.standard))
  unfold Primitive.listRef
  grind

@[grind ←] theorem keeps_listTail {args : List Value} (h : Meets L.standard args) :
    L.Keeps (Primitive.listTail args) := by
  unfold Primitive.listTail
  grind

@[grind ←] theorem keeps_member (who : String) (same : Value → Value → Bool) {args : List Value}
    (h : Meets L.standard args) : L.Keeps (Primitive.member who same args) := by
  unfold Primitive.member
  grind

@[grind ←] theorem keeps_assoc (who : String) (same : Value → Value → Bool) {args : List Value}
    (h : Meets L.standard args) : L.Keeps (Primitive.assoc who same args) := by
  unfold Primitive.assoc
  grind

@[grind ←] theorem keeps_vectorRef {args : List Value} (h : Meets L.standard args) :
    L.Keeps (Primitive.vectorRef args) := by
  have hitem := fun (items : List Value) hitems => meets_list_getD (l := items) hitems
    (meets_void (S := L.standard))
  unfold Primitive.vectorRef
  grind

@[grind .] theorem keeps_vectorLength (args : List Value) :
    L.Keeps (Primitive.vectorLength args) := by
  unfold Primitive.vectorLength
  grind

@[grind ←] theorem keeps_listToVector {args : List Value} (h : Meets L.standard args) :
    L.Keeps (Primitive.listToVector args) := by
  unfold Primitive.listToVector
  grind

@[grind ←] theorem keeps_vectorToList {args : List Value} (h : Meets L.standard args) :
    L.Keeps (Primitive.vectorToList args) := by
  have hfirst := meets_first h
  unfold Primitive.vectorToList
  grind

end Pairs

section Texts

@[grind .] theorem keeps_boundArg (v : Value) : L.Keeps (boundArg v) := by
  unfold boundArg
  grind

@[grind ←] theorem keeps_stringAppend {args : List Value} (h : Meets L.standard args) :
    L.Keeps (Primitive.stringAppend args) := by
  unfold Primitive.stringAppend
  grind

@[grind .] theorem keeps_stringLength (args : List Value) :
    L.Keeps (Primitive.stringLength args) := by
  unfold Primitive.stringLength
  grind

@[grind ←] theorem keeps_substring {args : List Value} (h : Meets L.standard args) :
    L.Keeps (Primitive.substring args) := by
  unfold Primitive.substring
  grind

@[grind .] theorem keeps_stringEq (args : List Value) : L.Keeps (Primitive.stringEq args) := by
  unfold Primitive.stringEq
  grind

@[grind .] theorem keeps_stringStarts (args : List Value) :
    L.Keeps (Primitive.stringStarts args) := by
  unfold Primitive.stringStarts
  grind

@[grind .] theorem keeps_changeCase (who : String) (f : List Char → List Char)
    (args : List Value) : L.Keeps (changeCase who f args) := by
  unfold changeCase
  grind

@[grind .] theorem keeps_symbolToString (args : List Value) :
    L.Keeps (Primitive.symbolToString args) := by
  unfold Primitive.symbolToString
  grind

@[grind .] theorem keeps_stringToSymbol (args : List Value) :
    L.Keeps (Primitive.stringToSymbol args) := by
  unfold Primitive.stringToSymbol
  grind

@[grind .] theorem keeps_numberToString (args : List Value) :
    L.Keeps (Primitive.numberToString args) := by
  unfold Primitive.numberToString
  grind

@[grind .] theorem keeps_stringToNumber (args : List Value) :
    L.Keeps (Primitive.stringToNumber args) := by
  unfold Primitive.stringToNumber
  grind

end Texts

section System

@[grind .] theorem keeps_portArg (args : List Value) (index : Nat) :
    L.Keeps (portArg args index) := by
  unfold portArg
  grind

@[grind ←] theorem keeps_output (who : String) {form : Value → Run String}
    (hf : ∀ v, L.Keeps (form v)) (args : List Value) : L.Keeps (output who form args) := by
  unfold output
  grind

@[grind .] theorem keeps_irritants (vs : List Value) : L.Keeps (irritants vs) := by
  induction vs with
  | nil => exact .pure trivial
  | cons v rest ih => exact .bind (keeps_text v) fun _ _ => .bind ih fun _ _ => .pure trivial

@[grind .] theorem keeps_errorMessage (args : List Value) : L.Keeps (errorMessage args) := by
  unfold errorMessage
  grind

@[grind .] theorem keeps_newline (args : List Value) : L.Keeps (Primitive.newline args) := by
  unfold Primitive.newline
  grind

@[grind ←] theorem keeps_constant (who : String) {v : Value} (hv : Meets L.standard v)
    (args : List Value) : L.Keeps (constant who v args) := by
  unfold constant
  grind

@[grind ←] theorem keeps_values {args : List Value} (h : Meets L.standard args) :
    L.Keeps (Primitive.values args) := by
  unfold Primitive.values
  grind

@[grind .] theorem keeps_error (args : List Value) : L.Keeps (Primitive.error args) := by
  unfold Primitive.error
  grind

@[grind .] theorem keeps_findModule (args : List Value) : L.Keeps (Primitive.findModule args) := by
  refine .bind (keeps_checkCount _ _ _ _) fun _ _ => .bind (keeps_moduleName _) fun name _ => ?_
  refine .reading (fun m m' hm => by rw [Lawful.findModule? hm]) fun m => ?_
  cases m.findModule? name with
  | some id => exact .pure (meets_object.mpr ⟨rfl, meets_nil.mpr trivial⟩)
  | none => exact .pure (meets_bool _)

@[grind .] theorem keeps_moduleName (args : List Value) : L.Keeps (Primitive.moduleName args) := by
  refine .bind (keeps_checkCount _ _ _ _) fun _ _ => ?_
  split
  · next id heq =>
    exact .reading (fun m m' hm => by rw [Lawful.moduleName id hm]) fun m => .pure (meets_sym _)
  · exact keeps_bad _ _ _

@[grind .] theorem keeps_exit (args : List Value) : L.Keeps (Primitive.exit args) :=
  .bind (keeps_checkCount _ _ _ _) fun _ _ => .throw _

end System

section Engines

variable {g g' : Engine}

@[grind ←] theorem mirrors_applyAll (hg : g.Mirrors L g') {proc : Value}
    {rows : List (List Value)} (hproc : Meets L.standard proc) (hrows : Meets L.standard rows) :
    L.Mirrors (applyAll g proc rows) (applyAll g' proc rows) := by
  induction rows with
  | nil => exact .pure (meets_nil.mpr trivial)
  | cons row rest ih =>
    obtain ⟨hrow, hrest⟩ := meets_cons.mp hrows
    exact .bind (hg.apply hproc hrow) fun _ hv => .bind (ih hrest) fun _ hvs =>
      .pure (meets_cons.mpr ⟨hv, hvs⟩)

@[grind ←] theorem mirrors_keep (hg : g.Mirrors L g') {test : Value} {vs : List Value}
    (htest : Meets L.standard test) (hvs : Meets L.standard vs) :
    L.Mirrors (keep g test vs) (keep g' test vs) := by
  induction vs with
  | nil => exact .pure (meets_nil.mpr trivial)
  | cons v rest ih =>
    obtain ⟨hv, hrest⟩ := meets_cons.mp hvs
    refine .bind (hg.apply htest (meets_cons.mpr ⟨hv, meets_nil.mpr trivial⟩)) fun verdict _ =>
      .bind (ih hrest) fun more hmore => .pure ?_
    split
    · exact hmore
    · exact meets_cons.mpr ⟨hv, hmore⟩

theorem meets_transpose {S : Standard} (count : Nat) {lists : List (List Value)}
    (h : Meets S lists) : Meets S (transpose count lists) := by
  fun_induction transpose count lists with
  | case1 => exact meets_nil.mpr trivial
  | case2 => exact meets_nil.mpr trivial
  | case3 count lists hne ih =>
    refine meets_cons.mpr ⟨fun v hv => ?_, ih fun rest hrest => ?_⟩
    · obtain ⟨row, hrow, hhead⟩ := List.mem_filterMap.mp hv
      exact h row hrow v (List.mem_of_mem_head? hhead)
    · obtain ⟨row, hrow, rfl⟩ := List.mem_map.mp hrest
      exact meets_drop (h row hrow) 1

@[grind ←] theorem mirrors_map (hg : g.Mirrors L g') {args : List Value}
    (h : Meets L.standard args) : L.Mirrors (Primitive.map g args) (Primitive.map g' args) :=
  .bind (keeps_checkCount _ _ _ _) fun _ _ =>
    .bind (keeps_listArgs _ (meets_drop h 1)) fun _ hlists =>
      .bind (mirrors_applyAll hg (meets_first h) (meets_transpose _ hlists)) fun _ hvs =>
        keeps_newList hvs

@[grind ←] theorem mirrors_forEach (hg : g.Mirrors L g') {args : List Value}
    (h : Meets L.standard args) :
    L.Mirrors (Primitive.forEach g args) (Primitive.forEach g' args) :=
  .bind (keeps_checkCount _ _ _ _) fun _ _ =>
    .bind (keeps_listArgs _ (meets_drop h 1)) fun _ hlists =>
      .bind (mirrors_applyAll hg (meets_first h) (meets_transpose _ hlists)) fun _ _ =>
        .pure meets_void

@[grind ←] theorem mirrors_filter (hg : g.Mirrors L g') {args : List Value}
    (h : Meets L.standard args) :
    L.Mirrors (Primitive.filter g args) (Primitive.filter g' args) := by
  refine .bind (keeps_checkCount _ _ _ _) fun _ _ => ?_
  split <;> grind

@[grind ←] theorem mirrors_apply (hg : g.Mirrors L g') {args : List Value}
    (h : Meets L.standard args) :
    L.Mirrors (Primitive.apply g args) (Primitive.apply g' args) := by
  refine .bind (keeps_checkCount _ _ _ _) fun _ _ =>
    .bind (keeps_listArg _ (meets_getLastD h meets_void)) fun spread hspread => ?_
  exact hg.apply (meets_first h) (meets_append.mpr ⟨meets_dropLast (meets_drop h 1), hspread⟩)

@[grind ←] theorem mirrors_callWithValues (hg : g.Mirrors L g') {args : List Value}
    (h : Meets L.standard args) :
    L.Mirrors (Primitive.callWithValues g args) (Primitive.callWithValues g' args) := by
  refine .bind (keeps_checkCount _ _ _ _) fun _ _ => ?_
  split
  · next producer consumer =>
    obtain ⟨hproducer, hrest⟩ := meets_cons.mp h
    have hconsumer := (meets_cons.mp hrest).1
    refine .bind (hg.apply hproducer (meets_nil.mpr trivial)) fun v hv => ?_
    split
    · exact hg.apply hconsumer (meets_object.mp hv).2
    · exact hg.apply hconsumer (meets_cons.mpr ⟨hv, meets_nil.mpr trivial⟩)
  · exact .pure meets_void

@[grind ←] theorem mirrors_load (hg : g.Mirrors L g') (args : List Value) :
    L.Mirrors (Primitive.load g args) (Primitive.load g' args) :=
  .bind (keeps_checkCount _ _ _ _) fun _ _ => .bind (keeps_textArg _ _) fun path _ =>
    .bind (hg.load path none) fun _ _ => .pure meets_void

@[grind ←] theorem mirrors_eval (hg : g.Mirrors L g') (s : Scope) {args : List Value}
    (h : Meets L.standard args) :
    L.Mirrors (Primitive.eval g s args) (Primitive.eval g' s args) := by
  refine .bind (keeps_checkCount _ _ _ _) fun _ _ => ?_
  split <;> grind

@[grind ←] theorem mirrors_expand (hg : g.Mirrors L g') (who : String) (everything : Bool)
    (s : Scope) {args : List Value} (h : Meets L.standard args) :
    L.Mirrors (Primitive.expand g who everything s args)
      (Primitive.expand g' who everything s args) :=
  .bind (keeps_checkCount _ _ _ _) fun _ _ => hg.expand (meets_first h) s everything

end Engines

end Primitive

namespace Builtin

@[grind .] theorem keeps_test (args : List Value) (who : String) (holds : Value → Bool) :
    L.Keeps (call.test args who holds) :=
  Primitive.keeps_predicate who (fun _ => .pure trivial) args

@[grind .] theorem keeps_compareTwo (args : List Value) (who : String)
    (same : Value → Value → Bool) : L.Keeps (call.compareTwo args who same) := by
  unfold call.compareTwo
  grind

theorem mirrors_call {g g' : Engine} (hg : g.Mirrors L g') (s : Scope) {args : List Value}
    (h : Meets L.standard args) {b : Builtin} (hb : b ≠ .version) :
    L.Mirrors (b.call g s args) (b.call g' s args) := by
  cases b <;> unfold call <;> grind

end Builtin

end LiveScheme
