import LiveScheme.Primitive.Call
import LiveScheme.Proofs.Machine.Engines

/-!
# What built-in procedures do to a machine

Every built-in procedure is tame on operands that it does not refuse, when the engine that it is
called on is tame. Most of them only look at their arguments and make new objects; the others print,
load, apply, evaluate or expand.
-/

namespace LiveScheme

open Run

variable {R : Fault → Prop}

namespace Primitive

section Arguments

@[grind .] theorem tame_checkCount (who : String) (low : Nat) (high : Option Nat)
    (args : List Value) : (checkCount who low high args).Tame R := by
  unfold checkCount
  dsimp only
  grind

theorem singleton_of_checkCount {who : String} {args : List Value} {m n : Machine}
    (h : checkCount who 1 (some 1) args m = .ok () n) : ∃ v, args = [v] := by
  match args, h with
  | [v], _ => exact ⟨v, rfl⟩
  | [], h | _ :: _ :: _, h => cases h

@[grind .] theorem tame_bad {α : Type} (who what : String) (v : Value) :
    (bad who what v : Run α).Tame R := by
  unfold bad
  grind

@[grind .] theorem tame_numbers (who : String) (args : List Value) : (numbers who args).Tame R := by
  induction args with
  | nil => exact .pure []
  | cons v rest ih =>
    unfold numbers
    grind

@[grind .] theorem tame_listArg (who : String) (v : Value) : (listArg who v).Tame R := by
  unfold listArg
  grind

@[grind .] theorem tame_listArgs (who : String) (args : List Value) :
    (listArgs who args).Tame R := by
  induction args with
  | nil => exact .pure []
  | cons v rest ih => exact (tame_listArg who v).bind fun _ => ih.bind fun _ => .pure _

@[grind .] theorem tame_textArg (who : String) (v : Value) : (textArg who v).Tame R := by
  unfold textArg
  grind

@[grind .] theorem tame_textArgs (who : String) (args : List Value) :
    (textArgs who args).Tame R := by
  induction args with
  | nil => exact .pure []
  | cons v rest ih => exact (tame_textArg who v).bind fun _ => ih.bind fun _ => .pure _

theorem str_of_textArg {who : String} {v : Value} {text : String} {m n : Machine}
    (h : textArg who v m = .ok text n) : ∃ tag, v = .str tag text := by
  cases v with
  | str tag text' =>
    cases h
    exact ⟨tag, rfl⟩
  | _ => cases h

theorem list_of_listArg {who : String} {v : Value} {items : List Value} {m n : Machine}
    (h : listArg who v m = .ok items n) : ∃ tag, v = .list tag items := by
  cases v with
  | list tag items' =>
    cases h
    exact ⟨tag, rfl⟩
  | _ => cases h

end Arguments

section Arithmetic

theorem numbers?_of_numbers {who : String} {args : List Value} {ns : List Number} {m n : Machine}
    (h : numbers who args m = .ok ns n) : numbers? args = some ns := by
  induction args generalizing ns m n with
  | nil => cases h; rfl
  | cons v rest ih =>
    unfold numbers at h
    cases hv : v.number? with
    | none =>
      rw [hv] at h
      cases h
    | some k =>
      rw [hv] at h
      dsimp only at h
      cases hrest : numbers who rest m with
      | error stop m' =>
        rw [bind_of_error hrest] at h
        cases h
      | ok ks m' =>
        rw [bind_of_ok hrest] at h
        cases h
        exact numbers?_cons_eq_some.mpr ⟨k, ks, hv, ih hrest, rfl⟩

theorem tame_foldNumbers {op : Number → Number → Except Fault Number} {start : Number}
    {ns : List Number} (h : foldRefusal? op start ns = none) :
    (foldNumbers op start ns).Tame R := by
  induction ns generalizing start with
  | nil => exact .pure start
  | cons n rest ih =>
    unfold foldRefusal? at h
    unfold foldNumbers
    cases hop : op start n with
    | ok a =>
      rw [hop] at h
      simpa only [Run.ofFault, pure_bind] using ih h
    | error f =>
      rw [hop] at h
      cases h

theorem tame_divideBy {n : Number} {ds : List Number} (h : divideRefusal? n ds = none) :
    (divideBy n ds).Tame R := by
  induction ds generalizing n with
  | nil => exact .pure n
  | cons d rest ih =>
    unfold divideRefusal? at h
    unfold divideBy
    split
    · exact .fail _
    · next hzero =>
      rw [if_neg hzero] at h
      cases hdiv : n.div d with
      | ok q =>
        rw [hdiv] at h
        simpa only [Run.ofFault, pure_bind] using ih h
      | error f =>
        rw [hdiv] at h
        cases h

theorem tame_isWhole {v : Value} (h : (v.number?.bind fun n => Fault.of? n.isWhole) = none) :
    (isWhole v).Tame R := by
  unfold isWhole
  split
  · next n hn =>
    rw [hn] at h
    exact .ofFault fun f hf => by rw [Option.bind_some, hf] at h; cases h
  · exact .pure _

@[grind ←] theorem tame_predicate (who : String) {test : Value → Run Bool}
    (ht : ∀ v, (test v).Tame R) (args : List Value) : (predicate who test args).Tame R := by
  unfold predicate
  grind

theorem tame_sum {args : List Value}
    (h : (numbers? args).bind (foldRefusal? Number.add (.int 0)) = none) : (sum args).Tame R := by
  refine (tame_numbers _ args).bind_of fun ns m n hns => ?_
  rw [numbers?_of_numbers hns] at h
  exact (tame_foldNumbers h).bind fun _ => .ofNumber _

theorem tame_product {args : List Value}
    (h : (numbers? args).bind (foldRefusal? Number.mul (.int 1)) = none) :
    (product args).Tame R := by
  refine (tame_numbers _ args).bind_of fun ns m n hns => ?_
  rw [numbers?_of_numbers hns] at h
  exact (tame_foldNumbers h).bind fun _ => .ofNumber _

theorem tame_difference {m : Machine} {args : List Value}
    (h : Builtin.sub.refusal? m args = none) : (difference args).Tame R := by
  refine (tame_checkCount _ _ _ _).bind fun _ => ?_
  refine (tame_numbers _ args).bind_of fun ns m n hns => ?_
  unfold Builtin.refusal? at h
  dsimp only at h
  rw [numbers?_of_numbers hns] at h
  split
  · exact .ofNumber _
  · exact (tame_foldNumbers h).bind fun _ => .ofNumber _
  · exact .pure _

theorem tame_ratio {m : Machine} {args : List Value}
    (h : Builtin.div.refusal? m args = none) : (ratio args).Tame R := by
  refine (tame_checkCount _ _ _ _).bind fun _ => ?_
  refine (tame_numbers _ args).bind_of fun ns m n hns => ?_
  unfold Builtin.refusal? at h
  dsimp only at h
  rw [numbers?_of_numbers hns] at h
  split
  · exact (tame_divideBy h).bind fun _ => .ofNumber _
  · next hone => exact (tame_divideBy (by simpa [hone] using h)).bind fun _ => .ofNumber _
  · exact .pure _

theorem tame_integerDivision {op : Number → Number → Except Fault Number} {args : List Value}
    (h : (numbers? args).bind (divisionRefusal? op) = none) (who : String) :
    (integerDivision who op args).Tame R := by
  refine (tame_checkCount _ _ _ _).bind fun _ => ?_
  refine (tame_numbers _ args).bind_of fun ns m n hns => ?_
  rw [numbers?_of_numbers hns, Option.bind_some] at h
  split
  · split
    · exact .fail _
    · next hzero =>
      rw [divisionRefusal?, if_neg hzero] at h
      refine .bind (.ofFault fun f hf => ?_) fun _ => .ofNumber _
      rw [hf] at h
      cases h
  · exact .pure _

@[grind .] theorem tame_comparison (who : String) (holds : Ordering → Bool) (args : List Value) :
    (comparison who holds args).Tame R := by
  unfold comparison
  grind

@[grind .] theorem tame_magnitude (args : List Value) : (magnitude args).Tame R := by
  unfold magnitude
  grind

@[grind .] theorem tame_extreme (who : String) (beats : Ordering → Bool) (args : List Value) :
    (extreme who beats args).Tame R := by
  unfold extreme
  grind

end Arithmetic

section Pairs

theorem tame_carOf {v : Value} (h : pairRefusal? v = none) : (carOf v).Tame R := by
  unfold carOf
  split
  · exact .pure _
  · exact .pure _
  · cases h
  · exact tame_bad _ _ _

@[grind .] theorem tame_cdrOf (v : Value) : (cdrOf v).Tame R := by
  unfold cdrOf
  grind

@[grind .] theorem tame_appendTo (items : List Value) (args : List Value) :
    (Primitive.appendTo items args).Tame R := by
  fun_induction Primitive.appendTo items args <;> grind

theorem tame_findEntry {same : Value → Value → Bool} {x : Value} {entries : List Value}
    (h : entriesRefusal? same x entries = none) : (findEntry same x entries).Tame R := by
  induction entries with
  | nil => exact .pure _
  | cons entry rest ih =>
    unfold entriesRefusal? at h
    unfold findEntry
    have hfound : ∀ key, (if same x key then none else entriesRefusal? same x rest) = none →
        (if same x key then pure entry else findEntry same x rest : Run Value).Tame R := by
      intro key h
      split
      · exact .pure _
      · next hsame =>
        rw [if_neg hsame] at h
        exact ih h
    split at h
    · exact hfound _ h
    · exact hfound _ h
    · next hlist himproper =>
      refine (tame_carOf h).bind_of fun key m n hkey => ?_
      unfold carOf at hkey
      split at hkey
      · exact absurd rfl (hlist _ _ _)
      · exact absurd rfl (himproper _ _ _ _)
      · cases hkey
      · cases hkey

@[grind .] theorem tame_newTexts (cs : List Char) : (newTexts cs).Tame R := by
  induction cs with
  | nil => exact .pure []
  | cons c rest ih => exact (Tame.newText _).bind fun _ => ih.bind fun _ => .pure _

@[grind .] theorem tame_cons (args : List Value) : (Primitive.cons args).Tame R := by
  unfold Primitive.cons
  grind

theorem tame_car {m : Machine} {args : List Value} (h : Builtin.car.refusal? m args = none) :
    (Primitive.car args).Tame R := by
  refine (tame_checkCount _ _ _ _).bind_of fun _ _ _ hcount => ?_
  obtain ⟨v, rfl⟩ := singleton_of_checkCount hcount
  exact tame_carOf h

@[grind .] theorem tame_cdr (args : List Value) : (Primitive.cdr args).Tame R := by
  unfold Primitive.cdr
  grind

theorem tame_cadr {m : Machine} {args : List Value} (h : Builtin.cadr.refusal? m args = none) :
    (Primitive.cadr args).Tame R := by
  refine (tame_cdr args).bind_of fun v m n hcdr => tame_carOf ?_
  obtain ⟨_, _, hcount, hcdr⟩ := exists_of_bind_ok hcdr
  obtain ⟨w, rfl⟩ := singleton_of_checkCount hcount
  cases w with
  | list tag items =>
    cases items <;> cases hcdr
    rfl
  | improper tag items tail =>
    rcases items with _ | ⟨x, _ | ⟨y, rest⟩⟩
    · cases hcdr
      exact h
    · cases hcdr
      exact h
    · cases hcdr
      rfl
  | _ => cases hcdr

@[grind .] theorem tame_cddr (args : List Value) : (Primitive.cddr args).Tame R := by
  unfold Primitive.cddr
  grind

theorem tame_caar {m : Machine} {args : List Value} (h : Builtin.caar.refusal? m args = none) :
    (Primitive.caar args).Tame R := by
  refine .bind_of (?_ : (Primitive.car args).Tame R) fun v m n hcar => tame_carOf ?_
  · refine (tame_checkCount _ _ _ _).bind_of fun _ _ _ hcount => ?_
    obtain ⟨w, rfl⟩ := singleton_of_checkCount hcount
    refine tame_carOf ?_
    cases w with
    | improper tag items =>
      cases items with
      | nil => exact h
      | cons => rfl
    | _ => rfl
  · obtain ⟨_, _, hcount, hcar⟩ := exists_of_bind_ok hcar
    obtain ⟨w, rfl⟩ := singleton_of_checkCount hcount
    cases w with
    | list tag items | improper tag items =>
      cases items <;> cases hcar
      exact h
    | _ => cases hcar

@[grind .] theorem tame_length (args : List Value) : (Primitive.length args).Tame R := by
  unfold Primitive.length
  grind

@[grind .] theorem tame_reverse (args : List Value) : (Primitive.reverse args).Tame R := by
  unfold Primitive.reverse
  grind

@[grind .] theorem tame_listRef (args : List Value) : (Primitive.listRef args).Tame R := by
  unfold Primitive.listRef
  grind

@[grind .] theorem tame_listTail (args : List Value) : (Primitive.listTail args).Tame R := by
  unfold Primitive.listTail
  grind

@[grind .] theorem tame_member (who : String) (same : Value → Value → Bool) (args : List Value) :
    (Primitive.member who same args).Tame R := by
  unfold Primitive.member
  grind

theorem tame_assoc {who : String} {same : Value → Value → Bool} {args : List Value}
    (h : ∀ x tag entries, args = [x, .list tag entries] → entriesRefusal? same x entries = none) :
    (Primitive.assoc who same args).Tame R := by
  refine (tame_checkCount _ _ _ _).bind fun _ => ?_
  split
  · next x xs =>
    refine (tame_listArg who xs).bind_of fun entries m n hlist => tame_findEntry ?_
    obtain ⟨tag, rfl⟩ := list_of_listArg hlist
    exact h x tag entries rfl
  · exact .pure _

@[grind .] theorem tame_vectorRef (args : List Value) : (Primitive.vectorRef args).Tame R := by
  unfold Primitive.vectorRef
  grind

@[grind .] theorem tame_vectorLength (args : List Value) :
    (Primitive.vectorLength args).Tame R := by
  unfold Primitive.vectorLength
  grind

@[grind .] theorem tame_listToVector (args : List Value) :
    (Primitive.listToVector args).Tame R := by
  unfold Primitive.listToVector
  grind

theorem tame_vectorToList {m : Machine} {args : List Value}
    (h : Builtin.vectorToList.refusal? m args = none) : (Primitive.vectorToList args).Tame R := by
  refine (tame_checkCount _ _ _ _).bind_of fun _ _ _ hcount => ?_
  obtain ⟨v, rfl⟩ := singleton_of_checkCount hcount
  have helements : elementsRefusal? v = none := h
  cases v with
  | list | vector | improper | str | char =>
    dsimp only [List.headD_cons]
    grind
  | _ => cases helements

end Pairs

section Texts

theorem tame_boundArg {v : Value} (h : boundRefusal? v = none) : (boundArg v).Tame R := by
  unfold boundRefusal? at h
  unfold boundArg
  split
  · exact .pure _
  · next hv => rw [hv] at h; cases h

@[grind .] theorem tame_stringAppend (args : List Value) :
    (Primitive.stringAppend args).Tame R := by
  unfold Primitive.stringAppend
  grind

@[grind .] theorem tame_stringLength (args : List Value) :
    (Primitive.stringLength args).Tame R := by
  unfold Primitive.stringLength
  grind

theorem tame_substring {m : Machine} {args : List Value}
    (h : Builtin.substring.refusal? m args = none) : (Primitive.substring args).Tame R := by
  refine (tame_checkCount _ _ _ _).bind_of fun _ _ _ hcount => ?_
  refine (tame_textArg _ _).bind_of fun text _ _ htext => ?_
  obtain ⟨tag, htext⟩ := str_of_textArg htext
  have hbounds : boundRefusal? (args.getD 1 .void) = none ∧
      boundRefusal? (args.getD 2 (.int text.toList.length)) = none := by
    rcases args with _ | ⟨v, _ | ⟨first, _ | ⟨last, _ | ⟨w, rest⟩⟩⟩⟩
    · cases hcount
    · cases hcount
    · cases htext
      exact ⟨h, rfl⟩
    · cases htext
      exact Option.or_eq_none_iff.mp h
    · cases hcount
  exact (tame_boundArg hbounds.1).bind fun _ => (tame_boundArg hbounds.2).bind fun _ =>
    .ite (.pure _) (.newText _)

@[grind .] theorem tame_stringEq (args : List Value) : (Primitive.stringEq args).Tame R := by
  unfold Primitive.stringEq
  grind

@[grind .] theorem tame_stringStarts (args : List Value) :
    (Primitive.stringStarts args).Tame R := by
  unfold Primitive.stringStarts
  grind

@[grind .] theorem tame_changeCase (who : String) (f : List Char → List Char) (args : List Value) :
    (changeCase who f args).Tame R := by
  unfold changeCase
  grind

@[grind .] theorem tame_symbolToString (args : List Value) :
    (Primitive.symbolToString args).Tame R := by
  unfold Primitive.symbolToString
  grind

@[grind .] theorem tame_stringToSymbol (args : List Value) :
    (Primitive.stringToSymbol args).Tame R := by
  unfold Primitive.stringToSymbol
  grind

@[grind .] theorem tame_numberToString (args : List Value) :
    (Primitive.numberToString args).Tame R := by
  unfold Primitive.numberToString
  grind

@[grind .] theorem tame_stringToNumber (args : List Value) :
    (Primitive.stringToNumber args).Tame R := by
  unfold Primitive.stringToNumber
  grind

end Texts

section System

@[grind .] theorem tame_portArg (args : List Value) (index : Nat) :
    (portArg args index).Tame R := by
  unfold portArg
  grind

@[grind ←] theorem tame_output (who : String) {form : Value → Run String}
    (hf : ∀ v, (form v).Tame R) (args : List Value) : (output who form args).Tame R := by
  unfold output
  grind

@[grind .] theorem tame_irritants (vs : List Value) : (irritants vs).Tame R := by
  induction vs with
  | nil => exact .pure ""
  | cons v rest ih => exact (Tame.text v).bind fun _ => ih.bind fun _ => .pure _

@[grind .] theorem tame_errorMessage (args : List Value) : (errorMessage args).Tame R := by
  unfold errorMessage
  grind

@[grind .] theorem tame_newline (args : List Value) : (Primitive.newline args).Tame R := by
  unfold Primitive.newline
  grind

@[grind .] theorem tame_constant (who : String) (v : Value) (args : List Value) :
    (constant who v args).Tame R := by
  unfold constant
  grind

@[grind .] theorem tame_values (args : List Value) : (Primitive.values args).Tame R := by
  unfold Primitive.values
  grind

@[grind .] theorem tame_error (args : List Value) : (Primitive.error args).Tame R := by
  unfold Primitive.error
  grind

@[grind .] theorem tame_version (args : List Value) : (Primitive.version args).Tame R := by
  unfold Primitive.version
  grind

@[grind .] theorem tame_findModule (args : List Value) : (Primitive.findModule args).Tame R := by
  unfold Primitive.findModule
  grind

@[grind .] theorem tame_moduleName (args : List Value) : (Primitive.moduleName args).Tame R := by
  unfold Primitive.moduleName
  grind

@[grind .] theorem tame_exit (args : List Value) : (Primitive.exit args).Tame R := by
  unfold Primitive.exit
  grind

end System

section Engines

variable {g : Engine}

@[grind ←] theorem tame_applyAll (hg : g.Tame R) (proc : Value) (rows : List (List Value)) :
    (applyAll g proc rows).Tame R := by
  induction rows with
  | nil => exact .pure []
  | cons row rest ih => exact (hg.apply proc row).bind fun _ => ih.bind fun _ => .pure _

@[grind ←] theorem tame_keep (hg : g.Tame R) (test : Value) (vs : List Value) :
    (keep g test vs).Tame R := by
  induction vs with
  | nil => exact .pure []
  | cons v rest ih => exact (hg.apply test [v]).bind fun _ => ih.bind fun _ => .pure _

@[grind ←] theorem tame_map (hg : g.Tame R) (args : List Value) :
    (Primitive.map g args).Tame R := by
  unfold Primitive.map
  grind

@[grind ←] theorem tame_forEach (hg : g.Tame R) (args : List Value) :
    (Primitive.forEach g args).Tame R := by
  unfold Primitive.forEach
  grind

@[grind ←] theorem tame_filter (hg : g.Tame R) (args : List Value) :
    (Primitive.filter g args).Tame R := by
  unfold Primitive.filter
  grind

@[grind ←] theorem tame_apply (hg : g.Tame R) (args : List Value) :
    (Primitive.apply g args).Tame R := by
  unfold Primitive.apply
  grind

@[grind ←] theorem tame_callWithValues (hg : g.Tame R) (args : List Value) :
    (Primitive.callWithValues g args).Tame R := by
  unfold Primitive.callWithValues
  grind

theorem tameAt_load (hg : g.Tame R) {m : Machine} {args : List Value}
    (h : Builtin.load.refusal? m args = none) : (Primitive.load g args).TameAt R m := by
  refine (tame_checkCount _ _ _ _ m).bind_of fun _ n hcount => ?_
  obtain ⟨v, rfl⟩ := singleton_of_checkCount hcount
  cases hcount
  refine (tame_textArg _ _ m).bind_of fun path n htext => ?_
  obtain ⟨tag, hv⟩ := str_of_textArg htext
  obtain rfl : v = .str tag path := hv
  cases htext
  exact (hg.load path none h).bind fun _ => .pure _

@[grind ←] theorem tame_eval (hg : g.Tame R) (s : Scope) (args : List Value) :
    (Primitive.eval g s args).Tame R := by
  unfold Primitive.eval
  grind

@[grind ←] theorem tame_expand (hg : g.Tame R) (who : String) (everything : Bool) (s : Scope)
    (args : List Value) :
    (Primitive.expand g who everything s args).Tame R := by
  unfold Primitive.expand
  grind

end Engines

end Primitive

namespace Builtin

@[grind .] theorem tame_test (args : List Value) (who : String) (holds : Value → Bool) :
    (call.test args who holds).Tame R :=
  Primitive.tame_predicate who (fun _ => .pure _) args

@[grind .] theorem tame_compareTwo (args : List Value) (who : String)
    (same : Value → Value → Bool) : (call.compareTwo args who same).Tame R := by
  unfold call.compareTwo
  grind

/-- A built-in procedure is tame on operands that it does not refuse. -/
theorem tame_call {g : Engine} {m : Machine} {args : List Value} (b : Builtin) (hg : g.Tame R)
    (h : b.refusal? m args = none) (s : Scope) : (b.call g s args).TameAt R m := by
  cases b
  case add => exact Primitive.tame_sum h m
  case mul => exact Primitive.tame_product h m
  case sub => exact Primitive.tame_difference h m
  case div => exact Primitive.tame_ratio h m
  case quotient | remainder | modulo => exact Primitive.tame_integerDivision h _ m
  case car => exact Primitive.tame_car h m
  case cadr => exact Primitive.tame_cadr h m
  case caar => exact Primitive.tame_caar h m
  case vectorToList => exact Primitive.tame_vectorToList h m
  case substring => exact Primitive.tame_substring h m
  case load => exact Primitive.tameAt_load hg h
  case assq | assoc =>
    refine Primitive.tame_assoc (fun x tag entries hargs => ?_) m
    rw [hargs] at h
    exact h
  case isInteger =>
    refine (Primitive.tame_checkCount _ _ _ _).bind_of (fun _ _ _ hcount => ?_) m
    obtain ⟨v, rfl⟩ := Primitive.singleton_of_checkCount hcount
    exact (Primitive.tame_isWhole h).bind fun _ => .pure _
  all_goals
    refine (?_ : (Builtin.call g s args _).Tame R) m
    unfold call
    grind

end Builtin

end LiveScheme
