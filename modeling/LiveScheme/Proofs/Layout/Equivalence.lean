import LiveScheme.Proofs.Layout.Agreement

/-!
# The two layouts behave alike

The same forms are evaluated one after another on a runtime of an old version and on one of a new
version. They end in the same way, with the same output, and leave corresponding machines, as long
as the old runtime finds the end of every search, variables and keywords keep apart, no keyword is
sought as a variable and nothing asks for the version. The new layout may find an end where the old
one does not: it looks for the head of a call among the variables, which may have it, where the old
one looks among the expanders, which do not.
-/

namespace LiveScheme

namespace Machine

section Initial

/-- No built-in procedure has the name of a special form. -/
theorem expanders_of_has {name : String} (h : (baseModule false).vars.has name = true) :
    (baseModule false).expanders.has name = false := by
  have hprocedure : name ∈ Builtin.all.map (·.name) := by
    simpa [baseModule, Table.names] using Table.has_iff_mem.mp h
  refine Bool.eq_false_iff.mpr fun hhas => ?_
  have hform : name ∈ SpecialForm.all.map (·.name) := by
    simpa [baseModule, Table.names] using Table.has_iff_mem.mp hhas
  exact (List.nodup_append.mp nodup_names).2.2 name hform name hprocedure rfl

theorem corresponds_baseModule : (baseModule false).Corresponds (baseModule true) where
  name := rfl
  imports := rfl
  exports name := by
    have hold : (baseModule false).exports =
        (baseModule false).vars.names ++ (baseModule false).expanders.names := rfl
    have hnew : (baseModule true).exports =
        (baseModule false).expanders.names ++ (baseModule false).vars.names := by
      simp [baseModule, Table.names, Function.comp_def]
    rw [hold, hnew, List.contains_append, List.contains_append, Bool.or_comm]
  vars name := by
    have hvars : (baseModule true).vars =
        (baseModule false).expanders.map (fun entry => (entry.1, Value.keyword entry.2)) ++
          (baseModule false).vars := rfl
    rw [hvars, Table.get?_append, Table.get?_map]
    cases hvar : (baseModule false).vars.get? name with
    | none => rw [Option.or_none, Option.none_or]
    | some v =>
      have hhas : (baseModule false).vars.has name = true := by rw [Table.has, hvar]; rfl
      rw [Table.get?_of_has_eq_false (expanders_of_has hhas)]
      rfl
  expanders := rfl

theorem corresponds_initial (version version' : String) (disk : Disk) :
    (initial version false disk).Corresponds (initial version' true disk) where
  old := rfl
  new := rfl
  size := rfl
  module id :=
    match id with
    | 0 => corresponds_baseModule
    | 1 | _ + 2 => ⟨rfl, rfl, fun _ => rfl, fun _ => rfl, rfl⟩

theorem separated_initial (version : String) (disk : Disk) :
    (initial version false disk).Separated := by
  intro i j name hi
  match i, j with
  | 0, 0 => exact expanders_of_has hi
  | 0, 1 | 0, _ + 2 => rfl
  | 1, _ | _ + 2, _ => cases hi

end Initial

end Machine

/-- Lets everything pass but calls of `version`. -/
def Watch.versionless : Watch where
  machines _ := true
  calls proc _ :=
    match proc with
    | .primitive (.builtin b) => b != .version
    | _ => true
  templates _ := true
  answers _ := true

theorem Watch.versionless_passes {L : Link} (hL : L.Forgiving)
    (hpairs : L.standard.loosePairs = true) (hservices : L.standard.services = false) :
    versionless.Passes L idle where
  machines _ := .inl rfl
  calls {proc args} _ _ := by
    cases hcall : versionless.calls proc args with
    | true => exact .inl rfl
    | false => exact .inr ⟨rfl, hL⟩
  templates hv := ⟨.inl rfl, fun _ => by rwa [Standard.draft_eq hpairs] at hv⟩
  answers _ := .inl rfl
  services h := absurd (h.symm.trans hservices) (by decide)
  version h := by cases h

/-- What an ending of the old runtime must be like to say something about the new one. -/
structure Ending.Comparable (ending : Ending) : Prop where
  ends : ¬ ending.GivesUp
  separated : ending.machine.Separated
  unbound : ∀ stop, ending.outcome = .error stop →
    ∀ name ∈ stop.unboundName?, ¬ ending.machine.IsKeyword name

instance (ending : Ending) : Decidable ending.Comparable :=
  match ending with
  | ⟨.ok _, n⟩ => decidable_of_iff n.Separated ⟨fun h => ⟨nofun, h, nofun⟩, fun h => h.separated⟩
  | ⟨.error stop, n⟩ =>
    decidable_of_iff (¬ Ending.GivesUp ⟨.error stop, n⟩ ∧ n.Separated ∧
      ∀ name ∈ stop.unboundName?, ¬ n.IsKeyword name)
      ⟨fun h => ⟨h.1, h.2.1, fun _ hstop => by cases hstop; exact h.2.2⟩,
        fun h => ⟨h.ends, h.separated, h.unbound stop rfl⟩⟩

/-- Forms end in the same way in both layouts, and leave corresponding machines. -/
theorem Engine.layouts_agree {version version' : String} {disk : Disk} {m m' : Machine}
    (hm : Machine.fresh version disk = .ok m) (hold : m.keywordsAreValues = false)
    (hm' : Machine.fresh version' disk = .ok m') (hnew : m'.keywordsAreValues = true)
    (allowance : Nat) (forms : List Datum)
    (h : ∀ ending ∈ (watched .versionless allowance).evalEach forms m, ending.Comparable) :
    List.Forall₂
      (fun ending ending' =>
        ending'.outcome = ending.outcome ∧ ending.machine.Corresponds ending'.machine)
      ((ofAllowance allowance).evalEach forms m) ((ofAllowance allowance).evalEach forms m') := by
  obtain ⟨modern, rfl⟩ := Machine.fresh_eq_ok hm
  obtain ⟨modern', rfl⟩ := Machine.fresh_eq_ok hm'
  obtain rfl : modern = false := hold
  obtain rfl : modern' = true := hnew
  have hforms : Meets Link.oldValues forms := Datum.meets_all_of_loose rfl forms
  have hupholds : (Machine.initial version false disk).Upholds Link.oldValues :=
    Machine.upholds_initial (fun hnew => by cases hnew) version disk
  have hplain := mirrors_performWatched
    (Watch.versionless_passes (Link.forgiving_same (S := Link.oldValues)) rfl rfl) allowance
  have hlayouts := mirrors_performWatched
    (Watch.versionless_passes (L := Link.layouts) (fun _ => .inl rfl) rfl rfl) allowance
  rw [watched_idle] at hplain hlayouts
  rw [evalEach_eq hplain hforms hupholds fun _ ending hmem => (h ending hmem).ends]
  have hagree := hlayouts.evalEach hforms
    ⟨Machine.corresponds_initial version version' disk, Machine.separated_initial version disk,
      hupholds⟩ fun ending hmem => ⟨fun hlost => hlost.1 (h ending hmem).separated, ?_⟩
  · exact hagree.imp fun ending ending' hsame => ⟨hsame.outcome, hsame.machine.1⟩
  · rintro stop hstop (rfl | ⟨name, hname, hkeyword⟩)
    · exact (h ending hmem).ends hstop
    · exact (h ending hmem).unbound stop hstop name hname hkeyword

/-- A macro that a module exports, a use of it where it is imported, and an unbound name. -/
def macroForms : List Datum :=
  (Datum.readAll "(define-module a (export same) (define-macro (same x) x)) (import a)
    (same (begin (define y 1) y)) z").toOption.getD []

theorem Engine.layouts_agree_macro :
    List.Forall₂
      (fun ending ending' =>
        ending'.outcome = ending.outcome ∧ ending.machine.Corresponds ending'.machine)
      ((ofAllowance 20).evalEach macroForms (.initial "1.50" false .empty))
      ((ofAllowance 20).evalEach macroForms (.initial "2.10" true .empty)) ∧
    ((ofAllowance 20).evalEach macroForms (.initial "2.10" true .empty)).map (fun ending =>
      ending.outcome.toOption.map ending.machine.write) =
      [some "#void", some "#void", some "1", none] := by
  have hold : Version.parse "1.50" = .ok [1, 50] := by decide +kernel
  have hnew : Version.parse "2.10" = .ok [2, 10] := by decide +kernel
  exact ⟨layouts_agree (Machine.fresh_of_parse hold .empty) rfl
    (Machine.fresh_of_parse hnew .empty) rfl 20 macroForms (by decide +kernel), by decide +kernel⟩

end LiveScheme
