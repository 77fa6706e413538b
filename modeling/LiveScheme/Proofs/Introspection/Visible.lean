import LiveScheme.Evaluator.Basic
import LiveScheme.Proofs.Machine.Search
import LiveScheme.Service.Introspection
import Mathlib.Data.List.Basic
import Mathlib.Data.String.Basic

/-!
# Visible names

The names that can be used in a module without qualification are listed from its own tables and from
the export lists of the modules that it imports. A search goes on to what those modules import in
turn, as deep as names are exported again, and whatever it finds was exported by the import that it
went through first. So the list, which looks one import deep, has every name that is found at any
depth, as a variable or as a keyword, and a completion misses none.
-/

namespace LiveScheme

open Text

namespace Machine

/-- The name is bound in the module, as a variable or as a keyword, or one of its imports exports
it. -/
def Sees (m : Machine) (id : Nat) (name : String) : Prop :=
  name ∈ (m.module id).vars.names ∨ name ∈ (m.module id).expanders.names ∨
    ∃ i ∈ (m.module id).imports, name ∈ (m.module i).exports

theorem mem_visibleNames {m : Machine} {id : Nat} {name : String} :
    name ∈ m.visibleNames id ↔ m.Sees id name := by
  simp [visibleNames, Sees]

/-- What is found in a module is its own or exported by one of its imports, whatever they import. -/
theorem owns_or_exported {m : Machine} {owns : Module → Bool} {name : String} {id home : Nat}
    (h : m.search owns name id = .found home) :
    owns (m.module id) = true ∨ ∃ i ∈ (m.module id).imports, name ∈ (m.module i).exports := by
  unfold search searchFrom at h
  split at h
  · next howns => exact .inl howns
  · obtain ⟨i, hi, hfound⟩ := Search.exists_of_firstOf h
    split at hfound
    · next hexport => exact .inr ⟨i, hi, List.contains_iff_mem.mp hexport⟩
    · cases hfound

variable {m : Machine} {name : String} {id home : Nat}

theorem sees_of_find (h : m.find name (.ofModule id) = .home home) : m.Sees id name := by
  obtain ⟨-, hsearch⟩ := find_eq_home_iff.mp h
  exact (owns_or_exported hsearch).imp Table.has_iff_mem.mp .inr

theorem sees_of_searchExpander (h : m.searchExpander name id = .found home) : m.Sees id name :=
  (owns_or_exported h).elim (fun hown => .inr (.inl (Table.has_iff_mem.mp hown)))
    fun hexported => .inr (.inr hexported)

end Machine

namespace Introspection

theorem nodup_eraseDups (names : List String) : names.eraseDups.Nodup := by
  induction hlength : names.length using Nat.strongRecOn generalizing names with
  | ind n ih =>
    subst hlength
    cases names with
    | nil => simp
    | cons name rest =>
      have hrest : (rest.filter fun other => !other == name).length < (name :: rest).length :=
        Nat.lt_succ_of_le (List.length_filter_le _ _)
      rw [List.eraseDups_cons, List.nodup_cons]
      exact ⟨by simp [List.mem_eraseDups], ih _ hrest _ rfl⟩

theorem mem_sorted {names : List String} {name : String} : name ∈ sorted names ↔ name ∈ names :=
  List.mem_mergeSort

/-- Names without repetition are sorted strictly. -/
theorem pairwise_sorted {names : List String} (h : names.Nodup) :
    (sorted names).Pairwise (· < ·) := by
  have hle : (sorted names).Pairwise fun a b => (!decide (b < a)) = true := by
    refine List.pairwise_mergeSort (fun a b c hab hbc => ?_) (fun a b => ?_) names
    · simp only [Bool.not_eq_true', decide_eq_false_iff_not, not_lt] at hab hbc ⊢
      exact hab.trans hbc
    · simp only [Bool.or_eq_true, Bool.not_eq_true', decide_eq_false_iff_not, not_lt]
      exact le_total a b
  have hnodup : (sorted names).Nodup := (List.mergeSort_perm names _).nodup_iff.mpr h
  refine (hle.and hnodup).imp fun {a b} hab => ?_
  obtain ⟨hab, hne⟩ := hab
  simp only [Bool.not_eq_true', decide_eq_false_iff_not, not_lt] at hab
  exact lt_of_le_of_ne hab hne

theorem mem_completions {m : Machine} {stem name : String} :
    name ∈ completions m stem ↔ m.Sees m.current name ∧ stem.toList <+: name.toList := by
  rw [completions, startingWith, mem_sorted, List.mem_filter, Machine.mem_visibleNames,
    startsWith, List.isPrefixOf_iff_prefix]

theorem pairwise_completions (m : Machine) (stem : String) :
    (completions m stem).Pairwise (· < ·) :=
  pairwise_sorted ((nodup_eraseDups _).filter _)

theorem completions_congr {m m' : Machine} (h : m'.modules = m.modules)
    (hc : m'.current = m.current) (stem : String) : completions m' stem = completions m stem := by
  have hmodule : ∀ id, m'.module id = m.module id := fun id => by
    rw [Machine.module, Machine.module, h]
  rw [completions, completions, Machine.visibleNames, Machine.visibleNames, hc]
  simp only [hmodule]

end Introspection

namespace Machine

open Introspection

/-- In every module of every machine, what a search for a variable or for a keyword finds is among
the visible names, and so is what an import exports. They are listed once each, and each is bound in
the module or exported by an import. The completions of a text are the visible names of the current
module that begin with it, in strict order. -/
theorem visibleNames_cover (m : Machine) :
    (∀ id, (m.visibleNames id).Nodup ∧ ∀ name,
      (name ∈ m.visibleNames id ↔
        name ∈ (m.module id).vars.names ∨ name ∈ (m.module id).expanders.names ∨
          ∃ i ∈ (m.module id).imports, name ∈ (m.module i).exports) ∧
      ((∃ home, m.find name (.ofModule id) = .home home) ∨
        (∃ home, m.searchExpander name id = .found home) → name ∈ m.visibleNames id)) ∧
    ∀ stem, (completions m stem).Pairwise (· < ·) ∧ ∀ name,
      name ∈ completions m stem ↔
        name ∈ m.visibleNames m.current ∧ stem.toList <+: name.toList := by
  refine ⟨fun id => ⟨nodup_eraseDups _, fun name => ⟨mem_visibleNames, fun hfound => ?_⟩⟩,
    fun stem => ⟨pairwise_completions m stem, fun name => ?_⟩⟩
  · rw [mem_visibleNames]
    obtain ⟨home, hfind⟩ | ⟨home, hsearch⟩ := hfound
    · exact sees_of_find hfind
    · exact sees_of_searchExpander hsearch
  · rw [mem_completions, mem_visibleNames]

/-- In the old layout, a variable and an expander that one module defines, another one exports again
and a third one, which is current, imports from there. -/
def handedOn : Machine :=
  ((Engine.ofAllowance 30).evalData none .void [
    .list [.sym "define-module", .sym "a", .list [.sym "export", .sym "tax", .sym "tally"],
      .list [.sym "define", .sym "tax", .int 1],
      .list [.sym "define-macro", .list [.sym "tally"], .int 2]],
    .list [.sym "define-module", .sym "b", .list [.sym "import", .sym "a"],
      .list [.sym "export", .sym "tax", .sym "tally"]],
    .list [.sym "define-module", .sym "c", .list [.sym "import", .sym "b"]],
    .list [.sym "select-module", .sym "c"]]).after
    (initial "1.50" false .empty)

theorem visibleNames_cover_handedOn : handedOn.current = 4 ∧
    handedOn.find "tax" (.ofModule 4) = .home 2 ∧ "tax" ∈ handedOn.visibleNames 4 ∧
    handedOn.searchExpander "tally" 4 = .found 2 ∧ "tally" ∈ completions handedOn "ta" := by
  obtain ⟨hvisible, hcompletions⟩ := visibleNames_cover handedOn
  have hcurrent : handedOn.current = 4 := by decide +kernel
  have hvariable : handedOn.find "tax" (.ofModule 4) = .home 2 := by decide +kernel
  have hexpander : handedOn.searchExpander "tally" 4 = .found 2 := by decide +kernel
  have htally := ((hvisible 4).2 "tally").2 (.inr ⟨2, hexpander⟩)
  refine ⟨hcurrent, hvariable, ((hvisible 4).2 "tax").2 (.inl ⟨2, hvariable⟩), hexpander,
    ((hcompletions "ta").2 "tally").mpr ⟨hcurrent ▸ htally, by decide⟩⟩

end Machine

end LiveScheme
