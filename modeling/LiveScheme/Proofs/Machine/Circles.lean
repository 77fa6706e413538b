import LiveScheme.Proofs.Machine.Registry
import LiveScheme.Proofs.Machine.Search
import Mathlib.Data.List.Chain
import Mathlib.Data.List.Perm.Subperm
import Mathlib.Logic.Relation

/-!
# Searches that end

A search has no bound of its own: it descends into one import after another and comes back from
those that have nothing. It ends if and only if it does not go round, which on a reachable machine
takes two modules that import each other, directly or through others. Otherwise the bound on its
depth is never met, whatever is sought.
-/

namespace LiveScheme

namespace Search

/-- What a search that ends has found. -/
def ofOption : Option Nat → Search
  | some home => .found home
  | none => .absent

theorem ofOption_injective {r r' : Option Nat} (h : ofOption r = ofOption r') : r = r' := by
  cases r <;> cases r' <;> first | rfl | cases h
  rfl

/-- None of the outcomes is anything, or the first one that is something decides. -/
theorem firstOf_cases (f : Nat → Search) (ids : List Nat) :
    (firstOf f ids = .absent ∧ ∀ k ∈ ids, f k = .absent) ∨
      ∃ before i after, ids = before ++ i :: after ∧ (∀ k ∈ before, f k = .absent) ∧
        f i ≠ .absent ∧ firstOf f ids = f i := by
  induction ids with
  | nil => exact .inl ⟨rfl, nofun⟩
  | cons k rest ih =>
    rw [firstOf]
    split
    · next hk =>
      obtain ⟨hrest, hall⟩ | ⟨before, i, after, rfl, hbefore, hi, hrest⟩ := ih
      · exact .inl ⟨hrest, List.forall_mem_cons.mpr ⟨hk, hall⟩⟩
      · exact .inr ⟨k :: before, i, after, rfl, List.forall_mem_cons.mpr ⟨hk, hbefore⟩, hi, hrest⟩
    · next hk => exact .inr ⟨[], k, rest, rfl, nofun, hk, rfl⟩

end Search

namespace Machine

/-- A search of a module ends, with the module that owns the name or with none. -/
inductive Finds (m : Machine) (owns : Module → Bool) (name : String) : Nat → Option Nat → Prop
  | here {id : Nat} : owns (m.module id) = true → Finds m owns name id (some id)
  | behind {id i home : Nat} {before after : List Nat} : owns (m.module id) = false →
    (m.module id).imports = before ++ i :: after →
    (∀ k ∈ before, (m.module k).exports.contains name = true → Finds m owns name k none) →
    (m.module i).exports.contains name = true → Finds m owns name i (some home) →
    Finds m owns name id (some home)
  | nowhere {id : Nat} : owns (m.module id) = false →
    (∀ k ∈ (m.module id).imports, (m.module k).exports.contains name = true →
      Finds m owns name k none) →
    Finds m owns name id none

/-- A search goes on from a module to one of its imports: the module does not own the name, and the
imports in front that export it have nothing. -/
def Descends (m : Machine) (owns : Module → Bool) (name : String) (id i : Nat) : Prop :=
  owns (m.module id) = false ∧ (m.module i).exports.contains name = true ∧
    ∃ before after, (m.module id).imports = before ++ i :: after ∧
      ∀ k ∈ before, (m.module k).exports.contains name = true → m.Finds owns name k none

/-- A search goes round: it comes to one of two different modules, and from each of them to the
other. -/
def GoesRound (m : Machine) (owns : Module → Bool) (name : String) (id : Nat) : Prop :=
  ∃ i j, i ≠ j ∧ Relation.ReflTransGen (m.Descends owns name) id i ∧
    Relation.TransGen (m.Descends owns name) i j ∧ Relation.TransGen (m.Descends owns name) j i

variable {m : Machine} {owns : Module → Bool} {name : String} {id i : Nat} {r r' : Option Nat}

/-- Of two places in a list one is in front of the other, unless they are the same. -/
theorem mem_front_or_eq {i i' : Nat} {before before' after after' : List Nat}
    (h : before ++ i :: after = before' ++ i' :: after') :
    i' ∈ before ∨ i ∈ before' ∨ i = i' := by
  obtain ⟨middle, hbefore, hrest⟩ | ⟨middle, hbefore, hrest⟩ := List.append_eq_append_iff.mp h
  · cases middle with
    | nil => exact .inr (.inr (List.cons.inj hrest).1)
    | cons k middle =>
      obtain ⟨rfl, -⟩ := List.cons.inj hrest
      exact .inr (.inl (by simp [hbefore]))
  · cases middle with
    | nil => exact .inr (.inr (List.cons.inj hrest).1.symm)
    | cons k middle =>
      obtain ⟨rfl, -⟩ := List.cons.inj hrest
      exact .inl (by simp [hbefore])

/-- A search that ends finds one thing only. -/
theorem Finds.unique (h : m.Finds owns name id r) (h' : m.Finds owns name id r') : r = r' := by
  induction h generalizing r' with
  | here howns =>
    cases h' with
    | here => rfl
    | behind hnot => exact absurd howns (by rw [hnot]; decide)
    | nowhere hnot => exact absurd howns (by rw [hnot]; decide)
  | behind hnot himports hbefore hexport hi ihbefore ih =>
    cases h' with
    | here howns => exact absurd howns (by rw [hnot]; decide)
    | behind _ himports' hbefore' hexport' hi' =>
      obtain hmem | hmem | rfl := mem_front_or_eq (himports.symm.trans himports')
      · cases ihbefore _ hmem hexport' hi'
      · cases ih (hbefore' _ hmem hexport)
      · exact ih hi'
    | nowhere _ hall => cases ih (hall _ (by simp [himports]) hexport)
  | nowhere hnot hall ihall =>
    cases h' with
    | here howns => exact absurd howns (by rw [hnot]; decide)
    | behind _ himports' _ hexport' hi' => exact ihall _ (by simp [himports']) hexport' hi'
    | nowhere => rfl

theorem Descends.lt_size (h : m.Descends owns name id i) : i < m.modules.size := by
  by_contra hi
  have hexport := h.2.1
  rw [module_of_not_lt hi] at hexport
  cases hexport

theorem Descends.mem_imports (h : m.Descends owns name id i) : i ∈ (m.module id).imports := by
  obtain ⟨-, -, before, after, himports, -⟩ := h
  simp [himports]

/-- A search that ends descends only into searches that end. -/
theorem Finds.acc (h : m.Finds owns name id r) : Acc (fun j i => m.Descends owns name i j) id := by
  induction h with
  | here howns => exact ⟨_, fun i hi => absurd howns (by rw [hi.1]; decide)⟩
  | behind _ himports hbefore hexport hhome ihbefore ih =>
    refine ⟨_, fun i ⟨_, hi, before', after', himports', hbefore'⟩ => ?_⟩
    obtain hmem | hmem | rfl := mem_front_or_eq (himports.symm.trans himports')
    · exact ihbefore _ hmem hi
    · cases hhome.unique (hbefore' _ hmem hexport)
    · exact ih
  | nowhere _ hall ihall => exact ⟨_, fun i hi => ihall i hi.mem_imports hi.2.1⟩

theorem Finds.not_transGen (h : m.Finds owns name id r)
    (hi : Relation.ReflTransGen (m.Descends owns name) id i) :
    ¬ Relation.TransGen (m.Descends owns name) i i := by
  have hacc : Acc (fun j i => m.Descends owns name i j) i := by
    induction hi with
    | refl => exact h.acc
    | tail _ hstep ih => exact ih.inv hstep
  clear hi
  induction hacc with
  | intro i _ ih =>
    intro hloop
    obtain ⟨j, hstep, hback⟩ := Relation.TransGen.head'_iff.mp hloop
    exact ih j hstep (.tail' hback hstep)

section Bounded

variable {depth : Nat}

/-- One step of a search: no import has anything, or the first one that has something decides. -/
theorem searchFrom_succ_cases (hnot : owns (m.module id) = false) (name : String) (depth : Nat) :
    (m.searchFrom owns name (depth + 1) id = .absent ∧ ∀ k ∈ (m.module id).imports,
      (m.module k).exports.contains name = true → m.searchFrom owns name depth k = .absent) ∨
    ∃ before i after, (m.module id).imports = before ++ i :: after ∧
      (∀ k ∈ before, (m.module k).exports.contains name = true →
        m.searchFrom owns name depth k = .absent) ∧
      (m.module i).exports.contains name = true ∧ m.searchFrom owns name depth i ≠ .absent ∧
      m.searchFrom owns name (depth + 1) id = m.searchFrom owns name depth i := by
  have hbranch : ∀ {k : Nat}, (if (m.module k).exports.contains name then
        m.searchFrom owns name depth k else .absent) = .absent →
      (m.module k).exports.contains name = true → m.searchFrom owns name depth k = .absent := by
    intro k hk hexport
    rwa [if_pos hexport] at hk
  rw [searchFrom, if_neg (by rw [hnot]; decide)]
  obtain ⟨hfirst, hall⟩ | ⟨before, i, after, himports, hbefore, hi, hfirst⟩ :=
    Search.firstOf_cases _ (m.module id).imports
  · exact .inl ⟨hfirst, fun k hk => hbranch (hall k hk)⟩
  · have hexport : (m.module i).exports.contains name = true := by
      by_contra hexport
      exact hi (if_neg hexport)
    rw [if_pos hexport] at hi hfirst
    exact .inr ⟨before, i, after, himports, fun k hk => hbranch (hbefore k hk), hexport, hi, hfirst⟩

theorem finds_of_searchFrom (h : m.searchFrom owns name depth id = Search.ofOption r) :
    m.Finds owns name id r := by
  induction depth generalizing id r with
  | zero => cases r <;> cases h
  | succ depth ih =>
    cases howns : owns (m.module id) with
    | true =>
      rw [searchFrom, if_pos howns] at h
      rw [← Search.ofOption_injective (r := some id) h]
      exact .here howns
    | false =>
      obtain ⟨habsent, hall⟩ | ⟨before, i, after, himports, hbefore, hexport, hi, hstep⟩ :=
        searchFrom_succ_cases howns name depth
      · rw [← Search.ofOption_injective (r := none) (habsent.symm.trans h)]
        exact .nowhere howns fun k hk hexport => ih (hall k hk hexport)
      · have hhome := hstep.symm.trans h
        cases r with
        | none => exact absurd hhome hi
        | some home =>
          exact .behind howns himports (fun k hk hexport => ih (hbefore k hk hexport)) hexport
            (ih hhome)

/-- A search that meets its bound has descended that far. -/
theorem exists_descent (h : m.searchFrom owns name depth id = .endless) :
    ∃ path : List Nat, path.length = depth ∧ (id :: path).IsChain (m.Descends owns name) := by
  induction depth generalizing id with
  | zero => exact ⟨[], rfl, .singleton id⟩
  | succ depth ih =>
    cases howns : owns (m.module id) with
    | true =>
      rw [searchFrom, if_pos howns] at h
      cases h
    | false =>
      obtain ⟨habsent, -⟩ | ⟨before, i, after, himports, hbefore, hexport, -, hstep⟩ :=
        searchFrom_succ_cases howns name depth
      · cases habsent.symm.trans h
      · obtain ⟨path, hlength, hpath⟩ := ih (hstep.symm.trans h)
        have hdescends : m.Descends owns name id i :=
          ⟨howns, hexport, before, after, himports, fun k hk hexport =>
            finds_of_searchFrom (r := none) (hbefore k hk hexport)⟩
        exact ⟨i :: path, by rw [List.length_cons, hlength], hpath.cons_cons hdescends⟩

/-- There are not enough modules for a descent that long without coming to one of them again. -/
theorem exists_transGen_of_descent {path : List Nat}
    (hpath : (id :: path).IsChain (m.Descends owns name)) (hlong : m.modules.size < path.length) :
    ∃ i, Relation.TransGen (m.Descends owns name) id i ∧
      Relation.TransGen (m.Descends owns name) i i := by
  have hlater : (id :: path).Pairwise (Relation.TransGen (m.Descends owns name)) :=
    List.isChain_iff_pairwise.mp (hpath.imp fun _ _ => Relation.TransGen.single)
  obtain ⟨hfrom, hpairs⟩ := List.pairwise_cons.mp hlater
  by_contra hnone
  have hnodup : path.Nodup := hpairs.imp_of_mem fun {i j} hi _ hij heq =>
    hnone ⟨i, hfrom i hi, by rwa [← heq] at hij⟩
  have hsmall : path ⊆ List.range m.modules.size := fun i hi => by
    obtain ⟨_, -, hstep⟩ := Relation.TransGen.tail'_iff.mp (hfrom i hi)
    exact List.mem_range.mpr hstep.lt_size
  have hlength := (List.subperm_of_subset hnodup hsmall).length_le
  rw [List.length_range] at hlength
  omega

end Bounded

/-- A search meets its bound only where it comes to a module again and again. -/
theorem exists_transGen_of_endless (h : m.search owns name id = .endless) :
    ∃ i, Relation.TransGen (m.Descends owns name) id i ∧
      Relation.TransGen (m.Descends owns name) i i := by
  obtain ⟨path, hlength, hpath⟩ := exists_descent h
  exact exists_transGen_of_descent hpath (by omega)

/-- What a search finds is what it finds within its bound. -/
theorem finds_iff_search : m.Finds owns name id r ↔ m.search owns name id = Search.ofOption r := by
  refine ⟨fun h => ?_, finds_of_searchFrom⟩
  have hended : ∀ r', m.search owns name id = Search.ofOption r' →
      m.search owns name id = Search.ofOption r := fun r' hr' => by
    rw [h.unique (finds_of_searchFrom hr'), hr']
  cases hsearch : m.search owns name id with
  | found home => exact hsearch ▸ hended (some home) hsearch
  | absent => exact hsearch ▸ hended none hsearch
  | endless =>
    obtain ⟨i, hi, hloop⟩ := exists_transGen_of_endless hsearch
    exact absurd hloop (h.not_transGen hi.to_reflTransGen)

/-- No module of a reachable machine imports itself, so a search goes round by way of another. -/
theorem Reachable.goesRound (hm : m.Reachable)
    (hi : Relation.ReflTransGen (m.Descends owns name) id i)
    (hloop : Relation.TransGen (m.Descends owns name) i i) : m.GoesRound owns name id := by
  obtain ⟨j, hstep, hback⟩ := Relation.TransGen.head'_iff.mp hloop
  have hne : j ≠ i := by
    rintro rfl
    exact (hm.keeping.ordered.each (module_of_lt hstep.lt_size)).apart hstep.mem_imports
  have hback := (Relation.reflTransGen_iff_eq_or_transGen.mp hback).resolve_left hne.symm
  exact ⟨i, j, hne.symm, hi, .single hstep, hback⟩

/-- On a reachable machine a search of any module for any name, among variables or among expanders,
ends if and only if it does not go round. What it then finds is what the bounded search finds. -/
theorem Reachable.search_ends_iff (hm : m.Reachable) (owns : Module → Bool) (name : String)
    (id : Nat) :
    ((∃ r, m.Finds owns name id r) ↔ ¬ m.GoesRound owns name id) ∧
      ∀ r, m.Finds owns name id r ↔ m.search owns name id = Search.ofOption r := by
  refine ⟨⟨fun ⟨r, hr⟩ ⟨i, j, _, hi, hij, hji⟩ => ?_, fun hnot => ?_⟩, fun r => finds_iff_search⟩
  · exact hr.not_transGen hi (hij.trans hji)
  · cases hsearch : m.search owns name id with
    | found home => exact ⟨some home, finds_iff_search.mpr hsearch⟩
    | absent => exact ⟨none, finds_iff_search.mpr hsearch⟩
    | endless =>
      obtain ⟨i, hi, hloop⟩ := exists_transGen_of_endless hsearch
      exact absurd (hm.goesRound hi.to_reflTransGen hloop) hnot

/-- Two modules that export a name, import each other and do not define it. -/
def mutualImports : Machine :=
  ((Engine.ofAllowance 30).evalData none .void [
    .list [.sym "define-module", .sym "a", .list [.sym "export", .sym "x"]],
    .list [.sym "define-module", .sym "b", .list [.sym "export", .sym "x"],
      .list [.sym "import", .sym "a"]],
    .list [.sym "define-module", .sym "a", .list [.sym "import", .sym "b"]]]).after
    (initial "1.70" true .empty)

theorem search_ends_iff_mutualImports : mutualImports.Reachable ∧
    (mutualImports.module 2).name = "a" ∧
    mutualImports.GoesRound (·.vars.has "x") "x" 2 ∧
    mutualImports.Finds (·.vars.has "car") "car" 2 (some schemeId) := by
  have hfresh : fresh "1.70" .empty = .ok (initial "1.70" true .empty) := by
    have hparse : Version.parse "1.70" = .ok [1, 70] := by decide +kernel
    exact fresh_of_parse hparse .empty
  have hreachable : mutualImports.Reachable := (Reachable.fresh hfresh).evaluate 30 none _
  have hx := hreachable.search_ends_iff (·.vars.has "x") "x" 2
  have hcar := hreachable.search_ends_iff (·.vars.has "car") "car" 2
  have hendless : mutualImports.search (·.vars.has "x") "x" 2 = .endless := by decide +kernel
  have hfound : mutualImports.search (·.vars.has "car") "car" 2 = .found schemeId := by
    decide +kernel
  refine ⟨hreachable, by decide +kernel, ?_, (hcar.2 (some schemeId)).mpr hfound⟩
  by_contra hnot
  obtain ⟨r, hr⟩ := hx.1.mpr hnot
  have hsearch := hendless.symm.trans ((hx.2 r).mp hr)
  cases r <;> cases hsearch

end Machine

end LiveScheme
