import LiveScheme.Proofs.Machine.Primitives
import LiveScheme.Proofs.Renaming.Engines

/-!
# Built-in procedures under a renaming

A built-in procedure compares identities, and it calls, prints and takes apart values, but it never
sees the number of an identity or the place of a closure. So on renamed arguments it follows what it
does on the arguments, when the engines follow.
-/

namespace LiveScheme

open Renaming Comparison

variable {ρ : Comparison} {lax : Bool} {g g' : Engine}

namespace Primitive

@[simp] theorem headD_void (args : List Value) :
    (ρ.on args).headD .void = ρ.on (args.headD .void) := headD_on args .void

section Arguments

theorem follows_checkCount (who : String) (low : Nat) (high : Option Nat) (args : List Value) :
    ρ.Follows lax (checkCount who low high args) (checkCount who low high (ρ.on args)) := by
  simp only [checkCount, length_on]
  exact .ite (.fail _) (.pure rfl)

theorem follows_bad {α : Type} [Renames α] (who what : String) (v : Value) :
    ρ.Follows lax (bad who what v : Run α) (bad who what (ρ.on v)) :=
  .bind (keeps_text v) fun _ => .fail _

theorem follows_numbers (who : String) (args : List Value) :
    ρ.Follows lax (numbers who args) (numbers who (ρ.on args)) := by
  induction args with
  | nil => exact .pure rfl
  | cons v rest ih =>
    simp only [on_cons, numbers, Value.number?_on]
    cases v.number? with
    | some n => exact .bind_fixed ih fun _ => .pure (on_fixed _).symm
    | none => exact follows_bad _ _ _

theorem follows_listArg (who : String) (v : Value) :
    ρ.Follows lax (listArg who v) (listArg who (ρ.on v)) := by
  cases v with
  | list tag items =>
    rw [on_list]
    exact .pure rfl
  | _ => exact follows_bad _ _ _

theorem follows_listArgs (who : String) (args : List Value) :
    ρ.Follows lax (listArgs who args) (listArgs who (ρ.on args)) := by
  induction args with
  | nil => exact .pure rfl
  | cons v rest ih => exact .bind (follows_listArg who v) fun _ => .bind ih fun _ => .pure rfl

theorem follows_textArg (who : String) (v : Value) :
    ρ.Follows lax (textArg who v) (textArg who (ρ.on v)) := by
  cases v with
  | str tag text => exact .pure rfl
  | _ => exact follows_bad _ _ _

theorem follows_textArgs (who : String) (args : List Value) :
    ρ.Follows lax (textArgs who args) (textArgs who (ρ.on args)) := by
  induction args with
  | nil => exact .pure rfl
  | cons v rest ih =>
    exact .bind (follows_textArg who v) fun _ => .bind_fixed ih fun _ => .pure (on_fixed _).symm

end Arguments

section Arithmetic

theorem keeps_fold (op : Number → Number → Except Fault Number) (start : Number)
    (ns : List Number) : ρ.Keeps lax (foldNumbers op start ns) := by
  induction ns generalizing start with
  | nil => exact .pure rfl
  | cons n rest ih => exact .bind (keeps_ofFault _) fun _ => ih _

theorem follows_sum (args : List Value) : ρ.Follows lax (sum args) (sum (ρ.on args)) :=
  .bind_fixed (follows_numbers "+" args) fun ns => .bind (keeps_fold _ _ ns) fun n =>
    keeps_ofNumber n

theorem follows_product (args : List Value) :
    ρ.Follows lax (product args) (product (ρ.on args)) :=
  .bind_fixed (follows_numbers "*" args) fun ns => .bind (keeps_fold _ _ ns) fun n =>
    keeps_ofNumber n

theorem follows_difference (args : List Value) :
    ρ.Follows lax (difference args) (difference (ρ.on args)) := by
  refine .bind (follows_checkCount _ _ _ args) fun _ => .bind_fixed (follows_numbers _ args) ?_
  rintro (_ | ⟨n, _ | ⟨d, rest⟩⟩)
  · exact .pure rfl
  · exact keeps_ofNumber _
  · exact .bind (keeps_fold _ n (d :: rest)) fun k => keeps_ofNumber k

theorem keeps_divide (n : Number) (ds : List Number) : ρ.Keeps lax (divideBy n ds) := by
  induction ds generalizing n with
  | nil => exact .pure rfl
  | cons d rest ih => exact .ite (.fail _) (.bind (keeps_ofFault _) fun _ => ih _)

theorem follows_ratio (args : List Value) : ρ.Follows lax (ratio args) (ratio (ρ.on args)) := by
  refine .bind (follows_checkCount _ _ _ args) fun _ => .bind_fixed (follows_numbers _ args) ?_
  rintro (_ | ⟨n, _ | ⟨d, rest⟩⟩)
  · exact .pure rfl
  · exact .bind (keeps_divide _ [n]) fun k => keeps_ofNumber k
  · exact .bind (keeps_divide n (d :: rest)) fun k => keeps_ofNumber k

theorem follows_integerDivision (who : String) (op : Number → Number → Except Fault Number)
    (args : List Value) :
    ρ.Follows lax (integerDivision who op args) (integerDivision who op (ρ.on args)) := by
  refine .bind (follows_checkCount _ _ _ args) fun _ => .bind_fixed (follows_numbers _ args) ?_
  rintro (_ | ⟨n, _ | ⟨d, _ | ⟨k, rest⟩⟩⟩)
  · exact .pure rfl
  · exact .pure rfl
  · exact .ite (.fail _) (.bind (keeps_ofFault _) fun q => keeps_ofNumber q)
  · exact .pure rfl

theorem follows_comparison (who : String) (holds : Ordering → Bool) (args : List Value) :
    ρ.Follows lax (comparison who holds args) (comparison who holds (ρ.on args)) :=
  .bind (follows_checkCount _ _ _ args) fun _ => .bind_fixed (follows_numbers who args) fun _ =>
    .pure rfl

theorem follows_magnitude (args : List Value) :
    ρ.Follows lax (magnitude args) (magnitude (ρ.on args)) := by
  refine .bind (follows_checkCount _ _ _ args) fun _ => .bind_fixed (follows_numbers _ args) ?_
  rintro (_ | ⟨n, rest⟩)
  · exact .pure rfl
  · exact keeps_ofNumber _

theorem best_on (beats : Ordering → Bool) (v : Value) (n : Number) (rest : List (Value × Number)) :
    best beats (ρ.on v) n (ρ.on rest) = ρ.on (best beats v n rest) := by
  induction rest generalizing v n with
  | nil => rfl
  | cons entry rest ih =>
    obtain ⟨w, k⟩ := entry
    simp only [on_cons, on_mk, on_fixed, best, ih]
    split <;> rfl

theorem zip_on (args : List Value) (ns : List Number) :
    (ρ.on args).zip ns = ρ.on (args.zip ns) := by
  induction args generalizing ns with
  | nil => rfl
  | cons v rest ih =>
    cases ns with
    | nil => rfl
    | cons n ns =>
      rw [on_cons, List.zip_cons_cons, ih]
      rfl

theorem follows_extreme (who : String) (beats : Ordering → Bool) (args : List Value) :
    ρ.Follows lax (extreme who beats args) (extreme who beats (ρ.on args)) := by
  refine .bind (follows_checkCount _ _ _ args) fun _ => ?_
  refine .bind_fixed (follows_numbers who args) fun ns => ?_
  rw [zip_on]
  rcases args.zip ns with _ | ⟨⟨v, n⟩, rest⟩
  · exact .pure rfl
  · exact .pure (best_on beats v n rest)

theorem follows_predicate (who : String) {test : Value → Run Bool}
    (ht : ∀ v, ρ.Follows lax (test v) (test (ρ.on v))) (args : List Value) :
    ρ.Follows lax (predicate who test args) (predicate who test (ρ.on args)) := by
  refine .bind (follows_checkCount _ _ _ args) fun _ => ?_
  cases args with
  | nil => exact .pure rfl
  | cons v rest => exact .bind (ht v) fun _ => .pure rfl

theorem follows_isWhole (v : Value) : ρ.Follows lax (isWhole v) (isWhole (ρ.on v)) := by
  unfold isWhole
  rw [Value.number?_on]
  cases v.number? with
  | some n => exact keeps_ofFault _
  | none => exact .pure rfl

end Arithmetic

section Pairs

theorem follows_carOf (v : Value) : ρ.Follows lax (carOf v) (carOf (ρ.on v)) := by
  cases v with
  | list tag items =>
    cases items with
    | nil => exact follows_bad _ _ _
    | cons x rest =>
      rw [on_list]
      exact .pure rfl
  | improper tag items tail =>
    rw [on_improper]
    cases items with
    | nil => exact .faulty _
    | cons x rest => exact .pure rfl
  | _ => exact follows_bad _ _ _

theorem follows_cdrOf (v : Value) : ρ.Follows lax (cdrOf v) (cdrOf (ρ.on v)) := by
  cases v with
  | list tag items =>
    cases items with
    | nil => exact follows_bad _ _ _
    | cons x rest =>
      rw [on_list]
      exact keeps_newList rest
  | improper tag items tail =>
    rw [on_improper]
    rcases items with _ | ⟨x, _ | ⟨y, rest⟩⟩
    · exact .pure rfl
    · exact .pure rfl
    · exact keeps_newImproper (y :: rest) tail
  | _ => exact follows_bad _ _ _

theorem follows_cons (args : List Value) :
    ρ.Follows lax (Primitive.cons args) (Primitive.cons (ρ.on args)) := by
  refine .bind (follows_checkCount _ _ _ args) fun _ => ?_
  rcases args with _ | ⟨a, _ | ⟨d, _ | ⟨other, rest⟩⟩⟩
  · exact .pure rfl
  · exact .pure rfl
  · exact keeps_newAttached [a] d
  · exact .pure rfl

theorem follows_car (args : List Value) :
    ρ.Follows lax (Primitive.car args) (Primitive.car (ρ.on args)) := by
  refine .bind (follows_checkCount _ _ _ args) fun _ => ?_
  rw [headD_void]
  exact follows_carOf _

theorem follows_cdr (args : List Value) :
    ρ.Follows lax (Primitive.cdr args) (Primitive.cdr (ρ.on args)) := by
  refine .bind (follows_checkCount _ _ _ args) fun _ => ?_
  rw [headD_void]
  exact follows_cdrOf _

/-- A procedure of one list. -/
theorem follows_ofList {α : Type} [Renames α] (who : String) {f f' : List Value → Run α}
    (hf : ∀ items, ρ.Follows lax (f items) (f' (ρ.on items))) (args : List Value) :
    ρ.Follows lax (listArg who (args.headD .void) >>= f)
      (listArg who ((ρ.on args).headD .void) >>= f') := by
  rw [headD_void]
  exact .bind (follows_listArg who _) hf

theorem follows_length (args : List Value) :
    ρ.Follows lax (Primitive.length args) (Primitive.length (ρ.on args)) := by
  refine .bind (follows_checkCount _ _ _ args) fun _ => follows_ofList _ (fun items => ?_) args
  rw [length_on]
  exact .pure rfl

theorem follows_appendTo (items args : List Value) :
    ρ.Follows lax (Primitive.appendTo items args)
      (Primitive.appendTo (ρ.on items) (ρ.on args)) := by
  induction args generalizing items with
  | nil => exact keeps_newList items
  | cons v rest ih =>
    cases rest with
    | nil =>
      have hother : ∀ v : Value, ρ.Follows lax
          (if items.isEmpty then return v else Run.newAttached items v)
          (if (ρ.on items).isEmpty then return ρ.on v else Run.newAttached (ρ.on items) (ρ.on v)) :=
        fun v => by
          rw [isEmpty_on]
          exact .ite (.pure rfl) (keeps_newAttached items v)
      cases v with
      | list tag more => exact keeps_newAttached items (.list tag more)
      | improper tag more tail => exact keeps_newAttached items (.improper tag more tail)
      | _ => exact hother _
    | cons w rest =>
      refine .bind (follows_listArg "append" v) fun more => ?_
      rw [← on_append]
      exact ih (items ++ more)

theorem follows_reverse (args : List Value) :
    ρ.Follows lax (Primitive.reverse args) (Primitive.reverse (ρ.on args)) :=
  .bind (follows_checkCount _ _ _ args) fun _ => follows_ofList _ (fun items => by
    rw [reverse_on]
    exact keeps_newList _) args

theorem indexBelow?_on (bound : Nat) (v : Value) :
    indexBelow? bound (ρ.on v) = indexBelow? bound v := by
  simp [indexBelow?]

theorem follows_listRef (args : List Value) :
    ρ.Follows lax (Primitive.listRef args) (Primitive.listRef (ρ.on args)) := by
  refine .bind (follows_checkCount _ _ _ args) fun _ => ?_
  rcases args with _ | ⟨xs, _ | ⟨k, _ | ⟨other, rest⟩⟩⟩
  · exact .pure rfl
  · exact .pure rfl
  · refine .bind (follows_listArg _ xs) fun items => ?_
    rw [length_on, indexBelow?_on]
    cases indexBelow? items.length k with
    | some n => exact .pure (getD_on items n .void)
    | none => exact follows_bad _ _ k
  · exact .pure rfl

theorem follows_listTail (args : List Value) :
    ρ.Follows lax (Primitive.listTail args) (Primitive.listTail (ρ.on args)) := by
  refine .bind (follows_checkCount _ _ _ args) fun _ => ?_
  rcases args with _ | ⟨xs, _ | ⟨k, _ | ⟨other, rest⟩⟩⟩
  · exact .pure rfl
  · exact .pure rfl
  · refine .bind (follows_listArg _ xs) fun items => ?_
    rw [length_on, indexBelow?_on]
    cases indexBelow? (items.length + 1) k with
    | some n =>
      simp only [drop_on]
      exact keeps_newList _
    | none => exact follows_bad _ _ k
  · exact .pure rfl

theorem dropWhile_on {test : Value → Value → Bool}
    (ht : ∀ v w : Value, test (ρ.on v) (ρ.on w) = test v w) (x : Value) (items : List Value) :
    (ρ.on items).dropWhile (!test (ρ.on x) ·) = ρ.on (items.dropWhile (!test x ·)) := by
  induction items with
  | nil => rfl
  | cons v rest ih =>
    simp only [on_cons, List.dropWhile_cons, ht, ih]
    split <;> rfl

theorem follows_member (who : String) {same : Value → Value → Bool}
    (hs : ∀ v w : Value, same (ρ.on v) (ρ.on w) = same v w) (args : List Value) :
    ρ.Follows lax (Primitive.member who same args) (Primitive.member who same (ρ.on args)) := by
  refine .bind (follows_checkCount _ _ _ args) fun _ => ?_
  rcases args with _ | ⟨x, _ | ⟨xs, _ | ⟨other, rest⟩⟩⟩
  · exact .pure rfl
  · exact .pure rfl
  · refine .bind (follows_listArg who xs) fun items => ?_
    rw [dropWhile_on hs]
    cases items.dropWhile (!same x ·) with
    | nil => exact .pure rfl
    | cons v rest => exact keeps_newList (v :: rest)
  · exact .pure rfl

theorem follows_findEntry {same : Value → Value → Bool}
    (hs : ∀ v w : Value, same (ρ.on v) (ρ.on w) = same v w) (x : Value) (entries : List Value) :
    ρ.Follows lax (findEntry same x entries) (findEntry same (ρ.on x) (ρ.on entries)) := by
  induction entries with
  | nil => exact .pure rfl
  | cons entry rest ih =>
    refine .bind (follows_carOf entry) fun key => ?_
    rw [hs]
    exact .ite (.pure rfl) ih

theorem follows_assoc (who : String) {same : Value → Value → Bool}
    (hs : ∀ v w : Value, same (ρ.on v) (ρ.on w) = same v w) (args : List Value) :
    ρ.Follows lax (Primitive.assoc who same args) (Primitive.assoc who same (ρ.on args)) := by
  refine .bind (follows_checkCount _ _ _ args) fun _ => ?_
  rcases args with _ | ⟨x, _ | ⟨xs, _ | ⟨other, rest⟩⟩⟩
  · exact .pure rfl
  · exact .pure rfl
  · exact .bind (follows_listArg who xs) fun entries => follows_findEntry hs x entries
  · exact .pure rfl

theorem transpose_on (count : Nat) (lists : List (List Value)) :
    transpose count (ρ.on lists) = ρ.on (transpose count lists) := by
  induction count generalizing lists with
  | zero => rfl
  | succ count ih =>
    have hany : ∀ lists : List (List Value),
        (ρ.on lists).any (·.isEmpty) = lists.any (·.isEmpty) := fun lists => by
      induction lists with
      | nil => rfl
      | cons list rest ih => rw [on_cons, List.any_cons, ih, isEmpty_on, List.any_cons]
    have hheads : ∀ lists : List (List Value),
        (ρ.on lists).filterMap (·.head?) = ρ.on (lists.filterMap (·.head?)) := fun lists => by
      induction lists with
      | nil => rfl
      | cons list rest ih =>
        cases list with
        | nil => exact ih
        | cons v _ => exact congrArg (ρ.on v :: ·) ih
    have htails : ∀ lists : List (List Value),
        (ρ.on lists).map (·.drop 1) = ρ.on (lists.map (·.drop 1)) := fun lists => by
      induction lists with
      | nil => rfl
      | cons list rest ih => rw [on_cons, List.map_cons, ih, drop_on]; rfl
    rw [transpose, hany, hheads, htails, ih, transpose]
    split <;> rfl

theorem rows_on (lists : List (List Value)) : rows (ρ.on lists) = ρ.on (rows lists) := by
  have hlength : ((ρ.on lists).headD []).length = (lists.headD []).length := by
    cases lists <;> simp
  rw [rows, hlength, transpose_on]
  rfl

theorem follows_applyAll (hg : g.Follows ρ lax g') (proc : Value) (rows : List (List Value)) :
    ρ.Follows lax (applyAll g proc rows) (applyAll g' (ρ.on proc) (ρ.on rows)) := by
  induction rows with
  | nil => exact .pure rfl
  | cons row rest ih => exact .bind (hg.apply proc row) fun _ => .bind ih fun _ => .pure rfl

theorem follows_map (hg : g.Follows ρ lax g') (args : List Value) :
    ρ.Follows lax (Primitive.map g args) (Primitive.map g' (ρ.on args)) := by
  refine .bind (follows_checkCount _ _ _ args) fun _ => ?_
  rw [drop_on, headD_void]
  refine .bind (follows_listArgs _ _) fun lists => ?_
  rw [rows_on]
  exact .bind (follows_applyAll hg _ _) fun vs => keeps_newList vs

theorem follows_forEach (hg : g.Follows ρ lax g') (args : List Value) :
    ρ.Follows lax (Primitive.forEach g args) (Primitive.forEach g' (ρ.on args)) := by
  refine .bind (follows_checkCount _ _ _ args) fun _ => ?_
  rw [drop_on, headD_void]
  refine .bind (follows_listArgs _ _) fun lists => ?_
  rw [rows_on]
  exact .bind (follows_applyAll hg _ _) fun vs => .pure rfl

theorem follows_keep (hg : g.Follows ρ lax g') (test : Value) (xs : List Value) :
    ρ.Follows lax (keep g test xs) (keep g' (ρ.on test) (ρ.on xs)) := by
  induction xs with
  | nil => exact .pure rfl
  | cons x rest ih =>
    refine .bind (hg.apply test [x]) fun verdict => .bind ih fun more => .pure ?_
    rw [Node.isFalse_on]
    split <;> rfl

theorem follows_filter (hg : g.Follows ρ lax g') (args : List Value) :
    ρ.Follows lax (Primitive.filter g args) (Primitive.filter g' (ρ.on args)) := by
  refine .bind (follows_checkCount _ _ _ args) fun _ => ?_
  rcases args with _ | ⟨test, _ | ⟨xs, _ | ⟨other, rest⟩⟩⟩
  · exact .pure rfl
  · exact .pure rfl
  · exact .bind (follows_listArg _ xs) fun items => .bind (follows_keep hg test items) fun vs =>
      keeps_newList vs
  · exact .pure rfl

theorem follows_vectorRef (args : List Value) :
    ρ.Follows lax (Primitive.vectorRef args) (Primitive.vectorRef (ρ.on args)) := by
  have hbad : ρ.Follows lax (bad "vector-ref" "arguments" (.list .symbolName args) : Run Value)
      (bad "vector-ref" "arguments" (ρ.on (.list .symbolName args))) := follows_bad _ _ _
  rw [on_list] at hbad
  refine .bind (follows_checkCount _ _ _ args) fun _ => ?_
  rcases args with _ | ⟨v, _ | ⟨k, _ | ⟨other, rest⟩⟩⟩
  · exact hbad
  · cases v <;> exact hbad
  · cases v with
    | vector tag items =>
      simp only [on_cons, on_nil, on_vector, length_on, indexBelow?_on] at hbad ⊢
      cases indexBelow? items.length k with
      | some n => exact .pure (getD_on items n Value.void)
      | none => exact hbad
    | _ => exact hbad
  · cases v <;> exact hbad

theorem follows_vectorLength (args : List Value) :
    ρ.Follows lax (Primitive.vectorLength args) (Primitive.vectorLength (ρ.on args)) := by
  refine .bind (follows_checkCount _ _ _ args) fun _ => ?_
  rw [headD_void]
  cases args.headD .void with
  | vector tag items =>
    rw [on_vector]
    exact .pure (by simp)
  | _ => exact follows_bad _ _ _

theorem follows_listToVector (args : List Value) :
    ρ.Follows lax (Primitive.listToVector args) (Primitive.listToVector (ρ.on args)) :=
  .bind (follows_checkCount _ _ _ args) fun _ => follows_ofList _ keeps_newVector args

theorem keeps_newCharacters (cs : List Char) : ρ.Keeps lax (newTexts cs) := by
  induction cs with
  | nil => exact .pure rfl
  | cons c rest ih => exact .bind (keeps_newText _) fun _ => .bind ih fun _ => .pure rfl

theorem follows_vectorToList (args : List Value) :
    ρ.Follows lax (Primitive.vectorToList args) (Primitive.vectorToList (ρ.on args)) := by
  refine .bind (follows_checkCount _ _ _ args) fun _ => ?_
  rw [headD_void]
  cases args.headD .void with
  | list tag items | vector tag items =>
    simp only [on_list, on_vector]
    exact keeps_newList items
  | str tag text => exact .bind (keeps_newCharacters _) fun vs => keeps_newList vs
  | char c => exact .bind (keeps_newCharacters _) fun vs => keeps_newList vs
  | improper tag items tail =>
    rw [on_improper]
    exact .bind (keeps_newList items) fun inner => keeps_newList [inner, tail]
  | object kind parts =>
    have hword := Value.kindWord_on (ρ := ρ.toRenaming) (.object kind parts)
    rw [on_object] at hword ⊢
    dsimp only
    rw [hword]
    exact .faulty _
  | _ => exact .faulty _

end Pairs

section Texts

/-- A procedure of one text. -/
theorem follows_ofText {α : Type} [Renames α] (who : String) {f f' : String → Run α}
    (hf : ∀ text, ρ.Follows lax (f text) (f' text)) (args : List Value) :
    ρ.Follows lax (textArg who (args.headD .void) >>= f)
      (textArg who ((ρ.on args).headD .void) >>= f') := by
  rw [headD_void]
  exact .bind (follows_textArg who _) hf

theorem follows_stringAppend (args : List Value) :
    ρ.Follows lax (Primitive.stringAppend args) (Primitive.stringAppend (ρ.on args)) := by
  refine .bind_fixed (follows_textArgs _ args) fun texts => ?_
  rcases args with _ | ⟨v, _ | ⟨w, rest⟩⟩
  · exact keeps_newText _
  · exact .pure rfl
  · exact keeps_newText _

theorem follows_stringLength (args : List Value) :
    ρ.Follows lax (Primitive.stringLength args) (Primitive.stringLength (ρ.on args)) :=
  .bind (follows_checkCount _ _ _ args) fun _ => follows_ofText _ (fun _ => .pure rfl) args

theorem follows_boundArg (v : Value) : ρ.Follows lax (boundArg v) (boundArg (ρ.on v)) := by
  unfold boundArg
  rw [Value.index?_on]
  cases v.index? with
  | some n => exact .pure rfl
  | none => exact .faulty _

theorem follows_substring (args : List Value) :
    ρ.Follows lax (Primitive.substring args) (Primitive.substring (ρ.on args)) := by
  refine .bind (follows_checkCount _ _ _ args) fun _ => ?_
  refine follows_ofText _ (fun text => ?_) args
  have hfirst : (ρ.on args).getD 1 .void = ρ.on (args.getD 1 .void) := getD_on args 1 .void
  have hlast : (ρ.on args).getD 2 (.int text.toList.length) =
      ρ.on (args.getD 2 (.int text.toList.length)) := getD_on args 2 (.int text.toList.length)
  simp only [hfirst, hlast]
  refine .bind (follows_boundArg _) fun first => .bind (follows_boundArg _) fun last => ?_
  rw [headD_void]
  exact .ite (.pure rfl) (keeps_newText _)

theorem follows_stringEq (args : List Value) :
    ρ.Follows lax (Primitive.stringEq args) (Primitive.stringEq (ρ.on args)) :=
  .bind_fixed (follows_textArgs _ args) fun _ => .pure rfl

theorem follows_stringStarts (args : List Value) :
    ρ.Follows lax (Primitive.stringStarts args) (Primitive.stringStarts (ρ.on args)) := by
  refine .bind (follows_checkCount _ _ _ args) fun _ => ?_
  refine .bind_fixed (follows_textArgs _ args) ?_
  rintro (_ | ⟨start, _ | ⟨text, _ | ⟨other, rest⟩⟩⟩) <;> exact .pure rfl

theorem follows_changeCase (who : String) (f : List Char → List Char) (args : List Value) :
    ρ.Follows lax (changeCase who f args) (changeCase who f (ρ.on args)) :=
  .bind (follows_checkCount _ _ _ args) fun _ => follows_ofText who (fun _ => keeps_newText _) args

theorem follows_symbolToString (args : List Value) :
    ρ.Follows lax (Primitive.symbolToString args) (Primitive.symbolToString (ρ.on args)) := by
  refine .bind (follows_checkCount _ _ _ args) fun _ => ?_
  rw [headD_void]
  cases args.headD .void with
  | sym name => exact .pure rfl
  | _ => exact follows_bad _ _ _

theorem follows_stringToSymbol (args : List Value) :
    ρ.Follows lax (Primitive.stringToSymbol args) (Primitive.stringToSymbol (ρ.on args)) :=
  .bind (follows_checkCount _ _ _ args) fun _ => follows_ofText _ (fun _ => .pure rfl) args

theorem follows_numberToString (args : List Value) :
    ρ.Follows lax (Primitive.numberToString args) (Primitive.numberToString (ρ.on args)) := by
  refine .bind (follows_checkCount _ _ _ args) fun _ => ?_
  refine .bind_fixed (follows_numbers _ args) fun _ => ?_
  rw [headD_void]
  exact .bind (keeps_text _) fun text => keeps_newText text

theorem follows_stringToNumber (args : List Value) :
    ρ.Follows lax (Primitive.stringToNumber args) (Primitive.stringToNumber (ρ.on args)) := by
  refine .bind (follows_checkCount _ _ _ args) fun _ => follows_ofText _ (fun text => ?_) args
  dsimp only
  cases Literal.integer? 10 text.toList with
  | some n => exact .pure rfl
  | none =>
    cases Literal.real? text.toList with
    | some x => exact keeps_ofNumber (.real x)
    | none => exact .pure rfl

end Texts

section System

theorem follows_portArg (args : List Value) (index : Nat) :
    ρ.Follows lax (portArg args index) (portArg (ρ.on args) index) := by
  have hbad : ∀ v : Value, ρ.Follows lax (do Run.fail (.badPort (← Run.text v)) : Run Port)
      (do Run.fail (.badPort (← Run.text (ρ.on v)))) :=
    fun v => .bind (keeps_text v) fun _ => .fail _
  unfold portArg
  rw [getElem?_on]
  cases args[index]? with
  | none => exact .pure rfl
  | some v =>
    cases v with
    | object kind parts =>
      cases kind <;> cases parts <;> first
        | exact hbad _
        | exact .pure rfl
    | _ => exact hbad _

theorem follows_output (who : String) {form : Value → Run String}
    (hf : ∀ v, ρ.Follows lax (form v) (form (ρ.on v))) (args : List Value) :
    ρ.Follows lax (output who form args) (output who form (ρ.on args)) := by
  refine .bind (follows_checkCount _ _ _ args) fun _ => ?_
  refine .bind (follows_portArg args 1) fun p => ?_
  rw [headD_void]
  exact .bind (hf _) fun text => .bind (keeps_writeTo p text) fun _ => .pure rfl

theorem follows_newline (args : List Value) :
    ρ.Follows lax (Primitive.newline args) (Primitive.newline (ρ.on args)) :=
  .bind (follows_checkCount _ _ _ args) fun _ => .bind (follows_portArg args 0) fun p =>
    .bind (keeps_writeTo p _) fun _ => .pure rfl

theorem follows_constant (who : String) (v : Value) (args : List Value) :
    ρ.Follows lax (constant who v args) (constant who (ρ.on v) (ρ.on args)) :=
  .bind (follows_checkCount _ _ _ args) fun _ => .pure rfl

theorem follows_apply (hg : g.Follows ρ lax g') (args : List Value) :
    ρ.Follows lax (Primitive.apply g args) (Primitive.apply g' (ρ.on args)) := by
  have hlast : (ρ.on args).getLastD .void = ρ.on (args.getLastD .void) := by
    simp only [List.getLastD_eq_getLast?, List.getLast?_eq_getElem?, length_on, getElem?_on]
    exact option_getD_on _ Value.void
  refine .bind (follows_checkCount _ _ _ args) fun _ => ?_
  rw [hlast, headD_void, drop_on, dropLast_on]
  refine .bind (follows_listArg _ _) fun spread => ?_
  rw [← on_append]
  exact hg.apply _ _

theorem follows_values (args : List Value) :
    ρ.Follows lax (Primitive.values args) (Primitive.values (ρ.on args)) := by
  have hseveral : ∀ args : List Value, ρ.Follows lax
      (do return .several (← Run.newTag) args : Run Value)
      (do return .several (← Run.newTag) (ρ.on args)) :=
    fun args => .bind keeps_newTag fun tag => .pure (on_object (.several tag) args).symm
  rcases args with _ | ⟨v, _ | ⟨w, rest⟩⟩
  · exact hseveral []
  · exact .pure rfl
  · exact hseveral (v :: w :: rest)

theorem follows_callWithValues (hg : g.Follows ρ lax g') (args : List Value) :
    ρ.Follows lax (Primitive.callWithValues g args)
      (Primitive.callWithValues g' (ρ.on args)) := by
  refine .bind (follows_checkCount _ _ _ args) fun _ => ?_
  rcases args with _ | ⟨producer, _ | ⟨consumer, _ | ⟨other, rest⟩⟩⟩
  · exact .pure rfl
  · exact .pure rfl
  · refine .bind (hg.apply producer []) fun v => ?_
    cases v with
    | object kind parts =>
      rw [on_object]
      cases kind with
      | several tag => exact hg.apply consumer parts
      | _ => exact on_object (ρ := ρ.toRenaming) _ parts ▸ hg.apply consumer [.object _ parts]
    | _ => exact hg.apply consumer [_]
  · exact .pure rfl

theorem follows_irritants (vs : List Value) :
    ρ.Follows lax (irritants vs) (irritants (ρ.on vs)) := by
  induction vs with
  | nil => exact .pure rfl
  | cons v rest ih => exact .bind (keeps_text v) fun _ => .bind ih fun _ => .pure rfl

theorem follows_errorMessage (args : List Value) :
    ρ.Follows lax (errorMessage args) (errorMessage (ρ.on args)) := by
  have hplain : ∀ (message : Value) (rest : List Value), ρ.Follows lax
      (do return (← Run.displayed message) ++ (← irritants rest))
      (do return (← Run.displayed (ρ.on message)) ++ (← irritants (ρ.on rest))) :=
    fun message rest => .bind (keeps_displayed message) fun _ =>
      .bind (follows_irritants rest) fun _ => .pure rfl
  rcases args with _ | ⟨who, _ | ⟨message, rest⟩⟩
  · exact .pure rfl
  · cases who <;> exact hplain _ []
  · cases who with
    | sym name =>
      exact .bind (keeps_displayed message) fun _ => .bind (follows_irritants rest) fun _ =>
        .pure rfl
    | _ => exact hplain _ (message :: rest)

theorem follows_error (args : List Value) :
    ρ.Follows lax (Primitive.error args) (Primitive.error (ρ.on args)) :=
  .bind (follows_checkCount _ _ _ args) fun _ => .bind (follows_errorMessage args) fun _ => .fail _

theorem follows_eval (hg : g.Follows ρ lax g') (s : Scope) (args : List Value) :
    ρ.Follows lax (Primitive.eval g s args) (Primitive.eval g' s (ρ.on args)) := by
  have hhere : ρ.Follows lax (g.eval (args.headD .void) (.ofModule s.home))
      (g'.eval ((ρ.on args).headD .void) (.ofModule s.home)) := by
    rw [headD_void]
    exact hg.eval _ _
  refine .bind (follows_checkCount _ _ _ args) fun _ => ?_
  rcases args with _ | ⟨e, _ | ⟨home, _ | ⟨other, rest⟩⟩⟩
  · exact hhere
  · exact hhere
  · exact .bind (keeps_resolveModule home) fun id => hg.eval e _
  · exact hhere

theorem follows_load (hg : g.Follows ρ lax g') (args : List Value) :
    ρ.Follows lax (Primitive.load g args) (Primitive.load g' (ρ.on args)) := by
  refine .bind (follows_checkCount _ _ _ args) fun _ => follows_ofText _ (fun path => ?_) args
  exact .bind (hg.load path none) fun _ => .pure rfl

theorem follows_version (args : List Value) :
    ρ.Follows lax (Primitive.version args) (Primitive.version (ρ.on args)) :=
  .bind (follows_checkCount _ _ _ args) fun _ => .reading fun m m' hm => by rw [hm.version]; rfl

theorem follows_findModule (args : List Value) :
    ρ.Follows lax (Primitive.findModule args) (Primitive.findModule (ρ.on args)) := by
  refine .bind (follows_checkCount _ _ _ args) fun _ => ?_
  rw [headD_void]
  refine .bind (keeps_moduleName _) fun name => .get ?_ fun m m' hm => ?_
  · exact Run.Moves.get.bind fun m => by split <;> exact .pure _
  · rw [hm.findModule?, on_fixed]
    cases m.findModule? name <;> exact .pure rfl

theorem follows_moduleName (args : List Value) :
    ρ.Follows lax (Primitive.moduleName args) (Primitive.moduleName (ρ.on args)) := by
  refine .bind (follows_checkCount _ _ _ args) fun _ => ?_
  rw [headD_void]
  cases args.headD .void with
  | object kind parts =>
    cases kind <;> cases parts <;> first
      | exact follows_bad _ _ _
      | exact .reading fun m m' hm => by rw [hm.moduleName]; rfl
  | _ => exact follows_bad _ _ _

theorem isModule_on (v : Value) : Primitive.isModule (ρ.on v) = Primitive.isModule v := by
  cases v with
  | object kind parts => cases kind <;> cases parts <;> rfl
  | _ => rfl

theorem follows_expand (hg : g.Follows ρ lax g') (who : String) (everything : Bool) (s : Scope)
    (args : List Value) :
    ρ.Follows lax (Primitive.expand g who everything s args)
      (Primitive.expand g' who everything s (ρ.on args)) := by
  refine .bind (follows_checkCount _ _ _ args) fun _ => ?_
  rw [headD_void]
  exact hg.expand _ s everything

theorem follows_exit (args : List Value) :
    ρ.Follows lax (Primitive.exit args) (Primitive.exit (ρ.on args)) := by
  have hcode : ExitCode.ofValue ((ρ.on args).headD (.int 0)) =
      ExitCode.ofValue (args.headD (.int 0)) := by
    cases args with
    | nil => rfl
    | cons v rest => cases v <;> rfl
  refine .bind (follows_checkCount _ _ _ args) fun _ => ?_
  rw [hcode]
  exact .throw _

end System

end Primitive

namespace Builtin

theorem follows_test (args : List Value) (who : String) {holds : Value → Bool}
    (h : ∀ v : Value, holds (ρ.on v) = holds v) :
    ρ.Follows lax (call.test args who holds) (call.test (ρ.on args) who holds) :=
  Primitive.follows_predicate who (fun v => .pure (h v)) args

theorem follows_compareTwo (args : List Value) (who : String) {same : Value → Value → Bool}
    (hs : ∀ v w : Value, same (ρ.on v) (ρ.on w) = same v w) :
    ρ.Follows lax (call.compareTwo args who same) (call.compareTwo (ρ.on args) who same) := by
  refine .bind (Primitive.follows_checkCount _ _ _ args) fun _ => ?_
  rcases args with _ | ⟨a, _ | ⟨b, _ | ⟨other, rest⟩⟩⟩
  · exact .pure rfl
  · exact .pure rfl
  · exact .pure (congrArg Node.bool (hs a b))
  · exact .pure rfl

/-- Every built-in procedure follows itself. -/
theorem follows_call (b : Builtin) (hg : g.Follows ρ lax g') (s : Scope) (args : List Value) :
    ρ.Follows lax (b.call g s args) (b.call g' s (ρ.on args)) := by
  cases b
  case add => exact Primitive.follows_sum args
  case sub => exact Primitive.follows_difference args
  case mul => exact Primitive.follows_product args
  case div => exact Primitive.follows_ratio args
  case quotient | remainder | modulo => exact Primitive.follows_integerDivision _ _ args
  case numEq | numLt | numGt | numLe | numGe => exact Primitive.follows_comparison _ _ args
  case abs => exact Primitive.follows_magnitude args
  case min | max => exact Primitive.follows_extreme _ _ args
  case isEq | isEqv => exact follows_compareTwo args _ Value.isEqv_on
  case isEqual => exact follows_compareTwo args _ Value.isEqual_on
  case not =>
    exact Primitive.follows_predicate _ (fun v => .pure (Node.isFalse_on v)) args
  case cons => exact Primitive.follows_cons args
  case car => exact Primitive.follows_car args
  case cdr => exact Primitive.follows_cdr args
  case cadr => exact .bind (Primitive.follows_cdr args) fun v => Primitive.follows_carOf v
  case cddr => exact .bind (Primitive.follows_cdr args) fun v => Primitive.follows_cdrOf v
  case caar => exact .bind (Primitive.follows_car args) fun v => Primitive.follows_carOf v
  case list => exact keeps_newList args
  case length => exact Primitive.follows_length args
  case append => exact Primitive.follows_appendTo [] args
  case reverse => exact Primitive.follows_reverse args
  case listRef => exact Primitive.follows_listRef args
  case listTail => exact Primitive.follows_listTail args
  case memq => exact Primitive.follows_member _ Value.isEqv_on args
  case member => exact Primitive.follows_member _ Value.isEqual_on args
  case assq => exact Primitive.follows_assoc _ Value.isEqv_on args
  case assoc => exact Primitive.follows_assoc _ Value.isEqual_on args
  case map => exact Primitive.follows_map hg args
  case forEach => exact Primitive.follows_forEach hg args
  case filter => exact Primitive.follows_filter hg args
  case isNull =>
    refine follows_test args _ fun v => ?_
    cases v with
    | list tag items => cases items <;> simp
    | _ => simp
  case isPair =>
    refine follows_test args _ fun v => ?_
    cases v with
    | list tag items => cases items <;> simp [Primitive.isPair]
    | _ => simp [Primitive.isPair]
  case isList => exact follows_test args _ Node.isProperList_on
  case isNumber => exact follows_test args _ fun v => by rw [Value.number?_on]
  case isInteger => exact Primitive.follows_predicate _ Primitive.follows_isWhole args
  case isZero => exact follows_test args _ fun v => by simp [Primitive.isZero]
  case isEven | isOdd => exact follows_test args _ fun v => by simp [Primitive.hasParity]
  case isBool | isSymbol | isString | isChar | isVector =>
    exact follows_test args _ fun v => by cases v <;> rfl
  case isProcedure => exact follows_test args _ Value.isProcedure_on
  case stringAppend => exact Primitive.follows_stringAppend args
  case stringLength => exact Primitive.follows_stringLength args
  case substring => exact Primitive.follows_substring args
  case stringEq => exact Primitive.follows_stringEq args
  case stringStarts => exact Primitive.follows_stringStarts args
  case stringUpcase | stringDowncase => exact Primitive.follows_changeCase _ _ args
  case symbolToString => exact Primitive.follows_symbolToString args
  case stringToSymbol => exact Primitive.follows_stringToSymbol args
  case numberToString => exact Primitive.follows_numberToString args
  case stringToNumber => exact Primitive.follows_stringToNumber args
  case vector => exact keeps_newVector args
  case vectorRef => exact Primitive.follows_vectorRef args
  case vectorLength => exact Primitive.follows_vectorLength args
  case listToVector => exact Primitive.follows_listToVector args
  case vectorToList => exact Primitive.follows_vectorToList args
  case display => exact Primitive.follows_output _ keeps_displayed args
  case write => exact Primitive.follows_output _ keeps_text args
  case newline => exact Primitive.follows_newline args
  case outputPort => exact Primitive.follows_constant _ (.port .output) args
  case errorPort => exact Primitive.follows_constant _ (.port .error) args
  case apply => exact Primitive.follows_apply hg args
  case values => exact Primitive.follows_values args
  case callWithValues => exact Primitive.follows_callWithValues hg args
  case error => exact Primitive.follows_error args
  case eval => exact Primitive.follows_eval hg s args
  case load => exact Primitive.follows_load hg args
  case version => exact Primitive.follows_version args
  case currentModule => exact Primitive.follows_constant _ (.space s.home) args
  case findModule => exact Primitive.follows_findModule args
  case moduleName => exact Primitive.follows_moduleName args
  case isModule => exact follows_test args _ Primitive.isModule_on
  case macroExpand | macroExpandOnce => exact Primitive.follows_expand hg _ _ s args
  case exit => exact Primitive.follows_exit args

end Builtin

end LiveScheme
