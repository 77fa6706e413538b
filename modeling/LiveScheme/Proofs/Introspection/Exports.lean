import LiveScheme.Proofs.Editor.Entries
import LiveScheme.Proofs.Machine.Circles

/-!
# The exports of a module

The listing of a module sorts what it exports by the values that the names have there. In the modern
layout keywords are values, and the listing has as keywords what the evaluator finds as keywords. In
the old layout they have none, and a name without a value counts as a keyword. The evaluator agrees,
save on names that are nothing at all and on those that are a keyword and a variable at once.
-/

namespace LiveScheme

namespace Machine

/-- The evaluator finds a keyword under the name. -/
def DenotesKeyword (m : Machine) (id : Nat) (name : String) : Prop :=
  ∃ k, Run.keywordIn? name id m = .ok (some k) m

/-- The evaluator finds the value under the name. -/
def DenotesValue (m : Machine) (id : Nat) (name : String) (v : Value) : Prop :=
  ∃ home, Run.valueIn? name id m = .ok (some (v, home)) m

/-- The name is bound to a procedure. -/
def DenotesProcedure (m : Machine) (id : Nat) (name : String) : Prop :=
  ∃ v, m.DenotesValue id name v ∧ v.isProcedure = true

/-- The search for the name among variables ends. -/
def SearchEnds (m : Machine) (id : Nat) (name : String) : Prop :=
  ∃ r, m.Finds (·.vars.has name) name id r

/-- What the search for the name among variables comes to: the value and the module that has it. -/
def bindingIn? (m : Machine) (id : Nat) (name : String) : Option (Value × Nat) :=
  match m.searchVariable name id with
  | .found home => ((m.module home).vars.get? name).map fun v => (v, home)
  | _ => none

variable {m : Machine} {id : Nat} {name : String}

theorem searchEnds_iff : m.SearchEnds id name ↔ m.searchVariable name id ≠ .endless := by
  unfold SearchEnds
  simp only [finds_iff_search]
  change (∃ r, m.searchVariable name id = Search.ofOption r) ↔ _
  cases m.searchVariable name id with
  | found home => exact ⟨nofun, fun _ => ⟨some home, rfl⟩⟩
  | absent => exact ⟨nofun, fun _ => ⟨none, rfl⟩⟩
  | endless =>
    refine ⟨fun ⟨r, hr⟩ => ?_, fun h => absurd rfl h⟩
    cases r <;> cases hr

theorem SearchEnds.valueIn? (h : m.SearchEnds id name) :
    Run.valueIn? name id m = .ok (m.bindingIn? id name) m := by
  obtain ⟨r, hr⟩ := h
  have hsearch : m.searchVariable name id = Search.ofOption r := finds_iff_search.mp hr
  rw [Run.valueIn?, Run.get_bind, bindingIn?, hsearch]
  cases r <;> rfl

theorem SearchEnds.denotesValue_iff (h : m.SearchEnds id name) {v : Value} :
    m.DenotesValue id name v ↔ (m.bindingIn? id name).map (·.1) = some v := by
  unfold DenotesValue
  rw [h.valueIn?]
  simp

theorem SearchEnds.keywordIn? (h : m.SearchEnds id name) (hmodern : m.keywordsAreValues = true) :
    Run.keywordIn? name id m = .ok (match m.bindingIn? id name with
      | some (.keyword k, _) => some k
      | _ => none) m := by
  rw [Run.keywordIn?, Run.get_bind, if_pos hmodern, bind_of_ok h.valueIn?]
  obtain _ | ⟨v, home⟩ := m.bindingIn? id name
  · rfl
  · cases v with
    | object kind parts => cases kind <;> cases parts <;> rfl
    | _ => rfl

/-- Where keywords are values, a keyword is found where a variable holds it. -/
theorem SearchEnds.denotesKeyword_iff (h : m.SearchEnds id name)
    (hmodern : m.keywordsAreValues = true) :
    m.DenotesKeyword id name ↔ ∃ k, m.DenotesValue id name (.keyword k) := by
  simp only [h.denotesValue_iff]
  unfold DenotesKeyword
  rw [h.keywordIn? hmodern]
  constructor
  · rintro ⟨k, hk⟩
    split at hk
    · next k' home hfound => exact ⟨k', by rw [hfound]; rfl⟩
    · cases hk
  · rintro ⟨k, hk⟩
    obtain ⟨⟨v, home⟩, hfound, rfl⟩ := Option.map_eq_some_iff.mp hk
    rw [hfound]
    exact ⟨k, rfl⟩

/-- Where keywords have no value, a keyword is found where a search among expanders finds it. -/
theorem denotesKeyword_iff_of_old (hold : m.keywordsAreValues = false) :
    m.DenotesKeyword id name ↔ ∃ home, m.searchExpander name id = .found home := by
  unfold DenotesKeyword
  rw [Run.keywordIn?, Run.get_bind, if_neg (by rw [hold]; decide)]
  cases hsearch : m.searchExpander name id with
  | found home =>
    obtain ⟨k, hk⟩ := Option.isSome_iff_exists.mp (owns_of_searchFrom hsearch)
    exact iff_of_true ⟨k, congrArg (EStateM.Result.ok · m) hk⟩ ⟨home, rfl⟩
  | absent => exact iff_of_false (fun ⟨k, hk⟩ => by cases hk) nofun
  | endless => exact iff_of_false (fun ⟨k, hk⟩ => by cases hk) nofun

end Machine

namespace Introspection

variable {modern : Bool} {found : Option Value}

theorem kindOf_eq_procedure_iff :
    kindOf modern found = .procedure ↔ ∃ v, found = some v ∧ v.isProcedure = true := by
  cases found with
  | none => cases modern <;> simp [kindOf]
  | some v =>
    cases hv : v.isProcedure with
    | true => simp [kindOf, hv]
    | false =>
      simp only [kindOf, hv, Option.some.injEq, exists_eq_left', Bool.false_eq_true, if_false,
        iff_false]
      split <;> decide

theorem kindOf_old_eq_keyword_iff : kindOf false found = .keyword ↔ found = none := by
  cases found with
  | none => simp [kindOf]
  | some v =>
    simp only [kindOf, reduceCtorEq, iff_false]
    split <;> decide

theorem kindOf_modern_eq_keyword_iff :
    kindOf true found = .keyword ↔ ∃ k, found = some (.keyword k) := by
  cases found with
  | none => simp [kindOf]
  | some v =>
    simp only [kindOf, Option.some.injEq]
    split
    · next hv =>
      refine ⟨nofun, ?_⟩
      rintro ⟨k, rfl⟩
      cases hv
    · split
      · simp
      · next hother _ => exact ⟨nofun, fun ⟨k, hk⟩ => (hother k rfl hk).elim⟩

variable {m : Machine} {id : Nat}

/-- Where a name is listed once its search has ended. -/
def kindIn (m : Machine) (id : Nat) (name : String) : Kind :=
  kindOf m.keywordsAreValues ((m.bindingIn? id name).map (·.1))

theorem classifyAll_of_ends {names : List String} (h : ∀ name ∈ names, m.SearchEnds id name) :
    classifyAll m.keywordsAreValues id names m =
      .ok (names.map fun name => (name, kindIn m id name)) m := by
  induction names with
  | nil => rfl
  | cons name rest ih =>
    obtain ⟨hname, hrest⟩ := List.forall_mem_cons.mp h
    have hkind : classify m.keywordsAreValues id name m = .ok (kindIn m id name) m :=
      bind_of_ok hname.valueIn?
    rw [classifyAll, bind_of_ok hkind, bind_of_ok (ih hrest)]
    rfl

theorem moduleExports_of_ends {v : Value} (hid : m.moduleFor? v = some id)
    (h : ∀ name ∈ (m.module id).exports, m.SearchEnds id name) :
    moduleExports v m = .ok (ModuleExports.ofEntries
      ((m.module id).exports.map fun name => (name, kindIn m id name))).datum m := by
  rw [moduleExports, Run.get_bind, hid]
  exact bind_of_ok (classifyAll_of_ends h)

theorem ofKind_map (kindIn : String → Kind) (kind : Kind) (names : List String) :
    ofKind kind (names.map fun name => (name, kindIn name)) =
      names.filter fun name => kindIn name == kind := by
  simp [ofKind, List.filter_map, Function.comp_def]

theorem ofKind_map_sublist (kindIn : String → Kind) (kind : Kind) (names : List String) :
    (ofKind kind (names.map fun name => (name, kindIn name))).Sublist names := by
  rw [ofKind_map]
  exact List.filter_sublist

/-- The lists have the names between them, each in the list of its kind. -/
theorem names_ofEntries_perm (kindIn : String → Kind) (names : List String) :
    (ModuleExports.ofEntries (names.map fun name => (name, kindIn name))).names.Perm names := by
  simp only [ModuleExports.ofEntries, ModuleExports.names, ofKind_map, List.nil_append]
  induction names with
  | nil => rfl
  | cons name rest ih =>
    rw [List.filter_cons, List.filter_cons, List.filter_cons]
    cases kindIn name
    · exact ih.cons name
    · rw [List.append_assoc] at ih ⊢
      exact List.perm_middle.trans (ih.cons name)
    · exact List.perm_middle.trans (ih.cons name)

end Introspection

/-- Every name is in one of the lists, once and in the order of the names. -/
structure ModuleExports.Sorts (e : ModuleExports) (names : List String) : Prop where
  modules : e.modules = []
  once : names.Nodup
  exactlyOne : e.names.Perm names
  procs : e.procs.Sublist names
  keywords : e.keywords.Sublist names
  vars : e.vars.Sublist names

theorem Introspection.sorts_ofEntries (kindIn : String → Kind) {names : List String}
    (h : names.Nodup) :
    (ModuleExports.ofEntries (names.map fun name => (name, kindIn name))).Sorts names where
  modules := rfl
  once := h
  exactlyOne := names_ofEntries_perm kindIn names
  procs := ofKind_map_sublist kindIn _ names
  keywords := ofKind_map_sublist kindIn _ names
  vars := ofKind_map_sublist kindIn _ names

namespace Machine

open Introspection

variable {m : Machine} {id : Nat} {name : String}

theorem Reachable.nodup_exports (hm : m.Reachable) (id : Nat) : (m.module id).exports.Nodup := by
  by_cases hid : id < m.modules.size
  · exact (hm.keeping.ordered.each (module_of_lt hid)).exportsOnce
  · rw [module_of_not_lt hid]
    exact List.nodup_nil

theorem SearchEnds.denotesProcedure_iff (h : m.SearchEnds id name) :
    m.DenotesProcedure id name ↔ kindIn m id name = .procedure := by
  unfold DenotesProcedure kindIn
  simp only [h.denotesValue_iff, kindOf_eq_procedure_iff]

theorem SearchEnds.not_denotesValue_iff (h : m.SearchEnds id name)
    (hold : m.keywordsAreValues = false) :
    (∀ v, ¬ m.DenotesValue id name v) ↔ kindIn m id name = .keyword := by
  rw [kindIn, hold, kindOf_old_eq_keyword_iff, Option.eq_none_iff_forall_ne_some]
  simp only [h.denotesValue_iff, ne_eq]

theorem SearchEnds.denotesKeyword_iff_kindIn (h : m.SearchEnds id name)
    (hmodern : m.keywordsAreValues = true) :
    m.DenotesKeyword id name ↔ kindIn m id name = .keyword := by
  rw [h.denotesKeyword_iff hmodern, kindIn, hmodern, kindOf_modern_eq_keyword_iff]
  simp only [h.denotesValue_iff]

/-- Where the searches for what a module exports end, the listing has every export in one of its
lists, in their order. In the old layout it goes by values: what has none is listed as a keyword,
and what is bound to a procedure as a procedure. In the modern layout, and in the old one on names
that are either keywords or bound, it agrees with the evaluator: a name is listed as a keyword if
and only if it denotes one, and as a procedure if and only if it does not and is bound to a
procedure. -/
theorem Reachable.moduleExports_agree (hm : m.Reachable) {v : Value}
    (hid : m.moduleFor? v = some id)
    (hends : ∀ name ∈ (m.module id).exports, m.SearchEnds id name) :
    ∃ e : ModuleExports, moduleExports v m = .ok e.datum m ∧ e.Sorts (m.module id).exports ∧
      ∀ name ∈ (m.module id).exports,
        (m.keywordsAreValues = false →
          (name ∈ e.keywords ↔ ∀ v, ¬ m.DenotesValue id name v) ∧
          (name ∈ e.procs ↔ m.DenotesProcedure id name)) ∧
        (m.keywordsAreValues = true ∨ (m.DenotesKeyword id name ↔ ∀ v, ¬ m.DenotesValue id name v) →
          (name ∈ e.keywords ↔ m.DenotesKeyword id name) ∧
          (name ∈ e.procs ↔ ¬ m.DenotesKeyword id name ∧ m.DenotesProcedure id name)) := by
  have hlisted : ∀ {kind : Kind} {name : String}, name ∈ (m.module id).exports →
      (name ∈ ofKind kind ((m.module id).exports.map fun name => (name, kindIn m id name)) ↔
        kindIn m id name = kind) := by
    intro kind name hname
    rw [ofKind_map, List.mem_filter, beq_iff_eq]
    exact and_iff_right hname
  refine ⟨_, moduleExports_of_ends hid hends, sorts_ofEntries _ (hm.nodup_exports id),
    fun name hname => ?_⟩
  have hended := hends name hname
  have hprocedure := (hlisted hname).trans hended.denotesProcedure_iff.symm
  refine ⟨fun hold => ⟨(hlisted hname).trans (hended.not_denotesValue_iff hold).symm, hprocedure⟩,
    fun hagree => ?_⟩
  -- from here on the layout does not matter: a keyword is what is listed as one
  have hkeyword : m.DenotesKeyword id name ↔ kindIn m id name = .keyword := by
    cases hlayout : m.keywordsAreValues with
    | true => exact hended.denotesKeyword_iff_kindIn hlayout
    | false =>
      have hagree := hagree.resolve_left (by rw [hlayout]; decide)
      exact hagree.trans (hended.not_denotesValue_iff hlayout)
  refine ⟨(hlisted hname).trans hkeyword.symm,
    hprocedure.trans ⟨fun h => ⟨fun hk => ?_, h⟩, And.right⟩⟩
  cases (hended.denotesProcedure_iff.mp h).symm.trans (hkeyword.mp hk)

/-- In the old layout, a module that exports a procedure, a macro, a variable, a name that it leaves
unbound and one that it has as a macro and as a procedure. -/
def mixedExports : Machine :=
  ((Engine.ofAllowance 30).evalData none .void [
    .list [.sym "define-module", .sym "a",
      .list [.sym "export", .sym "f", .sym "mac", .sym "v", .sym "ghost", .sym "both"],
      .list [.sym "define", .list [.sym "f"], .int 1],
      .list [.sym "define-macro", .list [.sym "mac"], .int 2],
      .list [.sym "define", .sym "v", .int 3],
      .list [.sym "define-macro", .list [.sym "both"], .int 4],
      .list [.sym "define", .list [.sym "both"], .int 5]]]).after
    (initial "1.50" false .empty)

theorem reachable_mixedExports : mixedExports.Reachable := by
  have hfresh : fresh "1.50" .empty = .ok (initial "1.50" false .empty) := by
    have hparse : Version.parse "1.50" = .ok [1, 50] := by decide +kernel
    exact fresh_of_parse hparse .empty
  exact (Reachable.fresh hfresh).evaluate 30 none _

theorem module_mixedExports : mixedExports.moduleFor? (.sym "a") = some 2 ∧
    (mixedExports.module 2).exports = ["f", "mac", "v", "ghost", "both"] ∧
    mixedExports.keywordsAreValues = false := by
  decide +kernel

theorem searchEnds_mixedExports :
    ∀ name ∈ (mixedExports.module 2).exports, mixedExports.SearchEnds 2 name := by
  simp only [searchEnds_iff]
  decide +kernel

theorem moduleExports_agree_mixedExports :
    ∃ e : ModuleExports, moduleExports (.sym "a") mixedExports = .ok e.datum mixedExports ∧
      e.Sorts ["f", "mac", "v", "ghost", "both"] ∧ "ghost" ∈ e.keywords ∧ "both" ∈ e.procs ∧
      mixedExports.DenotesKeyword 2 "mac" ∧ "mac" ∈ e.keywords := by
  obtain ⟨hid, hexports, hold⟩ := module_mixedExports
  have hends := searchEnds_mixedExports
  obtain ⟨e, hlisting, hsorts, hsorted⟩ := reachable_mixedExports.moduleExports_agree hid hends
  rw [hexports] at hends hsorts hsorted
  have hghost : ∀ v, ¬ mixedExports.DenotesValue 2 "ghost" v :=
    ((hends "ghost" (by decide)).not_denotesValue_iff hold).mpr (by decide +kernel)
  have hboth : mixedExports.DenotesProcedure 2 "both" :=
    (hends "both" (by decide)).denotesProcedure_iff.mpr (by decide +kernel)
  have hmac : mixedExports.DenotesKeyword 2 "mac" :=
    (denotesKeyword_iff_of_old hold).mpr ⟨2, by decide +kernel⟩
  have hunbound : ∀ v, ¬ mixedExports.DenotesValue 2 "mac" v :=
    ((hends "mac" (by decide)).not_denotesValue_iff hold).mpr (by decide +kernel)
  refine ⟨e, hlisting, hsorts, ?_, ?_, hmac, ?_⟩
  · exact ((hsorted "ghost" (by decide)).1 hold).1.mpr hghost
  · exact ((hsorted "both" (by decide)).1 hold).2.mpr hboth
  · exact ((hsorted "mac" (by decide)).2 (.inr (iff_of_true hmac hunbound))).1.mpr hmac

/-- The listing does not follow the evaluator: a name that is nothing is listed as a keyword, and a
keyword as a procedure. -/
theorem moduleExports_mixedExports : mixedExports.Reachable ∧
    mixedExports.moduleFor? (.sym "a") = some 2 ∧
    moduleExports (.sym "a") mixedExports =
      .ok (ModuleExports.datum ⟨[], ["f", "both"], ["mac", "ghost"], ["v"]⟩) mixedExports ∧
    ¬ mixedExports.DenotesKeyword 2 "ghost" ∧ mixedExports.DenotesKeyword 2 "both" := by
  obtain ⟨hid, -, hold⟩ := module_mixedExports
  have hentries : ModuleExports.ofEntries ((mixedExports.module 2).exports.map fun name =>
      (name, kindIn mixedExports 2 name)) = ⟨[], ["f", "both"], ["mac", "ghost"], ["v"]⟩ := by
    decide +kernel
  have hghost : mixedExports.searchExpander "ghost" 2 = .absent := by decide +kernel
  have hboth : mixedExports.searchExpander "both" 2 = .found 2 := by decide +kernel
  refine ⟨reachable_mixedExports, hid, ?_, ?_, (denotesKeyword_iff_of_old hold).mpr ⟨2, hboth⟩⟩
  · rw [moduleExports_of_ends hid searchEnds_mixedExports, hentries]
  · rw [denotesKeyword_iff_of_old hold, hghost]
    exact nofun

end Machine

end LiveScheme
