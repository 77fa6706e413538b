import LiveScheme.Proofs.Machine.Circles
import Mathlib.Data.List.Lex

/-!
# Import paths

A name is seen in a module along a path of imports: only the last module on it binds the name, and
all but the first export it. A path says at each module which place in the list of imports it goes
on from, so the order in which a search tries the paths is the order of lists of numbers. A search
that ends finds the end of the first path, and finds nothing only where there is no path. What a
module does not export therefore stays out of reach of every other module.
-/

namespace LiveScheme.Machine

/-- The path leads from a module to `home`. -/
inductive Leads (m : Machine) (owns : Module → Bool) (name : String) :
    Nat → List Nat → Nat → Prop
  | here {id : Nat} : owns (m.module id) = true → Leads m owns name id [] id
  | behind {id place i home : Nat} {path : List Nat} : owns (m.module id) = false →
    (m.module id).imports[place]? = some i → (m.module i).exports.contains name = true →
    Leads m owns name i path home → Leads m owns name id (place :: path) home

/-- The path leads to `home`, and every other path from the same module is tried later. -/
def LeadsFirst (m : Machine) (owns : Module → Bool) (name : String) (id : Nat) (path : List Nat)
    (home : Nat) : Prop :=
  m.Leads owns name id path home ∧ ∀ path' home', m.Leads owns name id path' home' →
    path' = path ∨ List.Lex (· < ·) path path'

variable {m : Machine} {owns : Module → Bool} {name : String} {id home home' : Nat}
  {path path' : List Nat}

/-- A path leads to one module only. -/
theorem Leads.unique (h : m.Leads owns name id path home) (h' : m.Leads owns name id path home') :
    home = home' := by
  induction h with
  | here => cases h'; rfl
  | behind _ hplace _ _ ih =>
    cases h' with
    | behind _ hplace' _ hrest =>
      cases hplace.symm.trans hplace'
      exact ih hrest

theorem LeadsFirst.unique (h : m.LeadsFirst owns name id path home)
    (h' : m.LeadsFirst owns name id path' home') : home = home' := by
  obtain rfl | hlt := h.2 _ _ h'.1
  · exact h.1.unique h'.1
  · obtain rfl | hgt := h'.2 _ _ h.1
    · exact h.1.unique h'.1
    · exact absurd hgt ((List.Lex.asymm (· < ·)).asymm _ _ hlt)

/-- A module that is reached from another one exports the name. -/
theorem Leads.contains_exports (h : m.Leads owns name id path home) (hne : home ≠ id) :
    (m.module home).exports.contains name = true := by
  induction h with
  | here => exact absurd rfl hne
  | @behind id place i home path _ _ hexport _ ih =>
    by_cases hi : home = i
    · exact hi ▸ hexport
    · exact ih hi

/-- A module that owns the name comes before everything that it imports. -/
theorem leadsFirst_nil (howns : owns (m.module id) = true) :
    m.LeadsFirst owns name id [] id :=
  ⟨.here howns, fun path _ _ => (List.lex_nil_or_eq_nil path).symm⟩

/-- The first path goes through the first import that leads anywhere. -/
theorem LeadsFirst.behind {i : Nat} {before after : List Nat} (hnot : owns (m.module id) = false)
    (himports : (m.module id).imports = before ++ i :: after)
    (hbefore : ∀ k ∈ before, (m.module k).exports.contains name = true →
      ∀ path home, ¬ m.Leads owns name k path home)
    (hexport : (m.module i).exports.contains name = true)
    (h : m.LeadsFirst owns name i path home) :
    m.LeadsFirst owns name id (before.length :: path) home := by
  have hplace : (m.module id).imports[before.length]? = some i := by simp [himports]
  refine ⟨.behind hnot hplace hexport h.1, fun path' home' h' => ?_⟩
  cases h' with
  | here howns => exact absurd howns (by rw [hnot]; decide)
  | @behind _ place k _ rest _ hplace' hexport' hrest =>
    obtain hlt | heq | hgt := Nat.lt_trichotomy before.length place
    · exact .inr (.rel hlt)
    · subst heq
      cases hplace.symm.trans hplace'
      exact (h.2 _ _ hrest).imp (congrArg _) .cons
    · have hk : k ∈ before := by
        rw [himports, List.getElem?_append_left hgt] at hplace'
        exact List.mem_of_getElem? hplace'
      exact absurd hrest (hbefore k hk hexport' _ _)

/-- Nothing leads on from a module whose imports lead nowhere. -/
theorem not_leads (hnot : owns (m.module id) = false)
    (hall : ∀ k ∈ (m.module id).imports, (m.module k).exports.contains name = true →
      ∀ path home, ¬ m.Leads owns name k path home) (path : List Nat) (home : Nat) :
    ¬ m.Leads owns name id path home := by
  intro h
  cases h with
  | here howns => exact absurd howns (by rw [hnot]; decide)
  | behind _ hplace hexport hrest => exact hall _ (List.mem_of_getElem? hplace) hexport _ _ hrest

/-- A search that ends has found the end of the first path, or there is no path. -/
theorem Finds.leadsFirst_or {r : Option Nat} (h : m.Finds owns name id r) :
    (∃ path home, r = some home ∧ m.LeadsFirst owns name id path home) ∨
      r = none ∧ ∀ path home, ¬ m.Leads owns name id path home := by
  have hnothing : ∀ {k}, (∃ path home, none = some home ∧ m.LeadsFirst owns name k path home) ∨
      (none : Option Nat) = none ∧ (∀ path home, ¬ m.Leads owns name k path home) →
      ∀ path home, ¬ m.Leads owns name k path home := fun h =>
    (h.resolve_left fun ⟨_, _, hnone, _⟩ => by cases hnone).2
  induction h with
  | here howns => exact .inl ⟨[], _, rfl, leadsFirst_nil howns⟩
  | behind hnot himports _ hexport _ ihbefore ih =>
    obtain ⟨path, home, hhome, hfirst⟩ | ⟨hnone, -⟩ := ih
    · cases hhome
      exact .inl ⟨_, _, rfl, hfirst.behind hnot himports
        (fun k hk hexport => hnothing (ihbefore k hk hexport)) hexport⟩
    · cases hnone
  | nowhere hnot _ ihall =>
    exact .inr ⟨rfl, not_leads hnot fun k hk hexport => hnothing (ihall k hk hexport)⟩

theorem Finds.some_iff {r : Option Nat} (h : m.Finds owns name id r) :
    r = some home ↔ ∃ path, m.LeadsFirst owns name id path home := by
  obtain ⟨path, home', rfl, hfirst⟩ | ⟨rfl, hnone⟩ := h.leadsFirst_or
  · refine ⟨fun heq => ?_, fun ⟨path', hfirst'⟩ => congrArg some (hfirst.unique hfirst')⟩
    cases heq
    exact ⟨path, hfirst⟩
  · exact ⟨nofun, fun ⟨path, hfirst⟩ => absurd hfirst.1 (hnone path home)⟩

theorem Finds.none_iff {r : Option Nat} (h : m.Finds owns name id r) :
    r = none ↔ ∀ path home, ¬ m.Leads owns name id path home := by
  obtain ⟨path, home, rfl, hfirst⟩ | ⟨rfl, hnone⟩ := h.leadsFirst_or
  · exact ⟨nofun, fun hnone => absurd hfirst.1 (hnone path home)⟩
  · exact ⟨fun _ => hnone, fun _ => rfl⟩

theorem find_ofModule_of_finds {r : Option Nat}
    (h : m.Finds (·.vars.has name) name id r) :
    m.find name (.ofModule id) = r.elim .absent .home := by
  have hsearch : m.searchVariable name id = Search.ofOption r := finds_iff_search.mp h
  have hframe : m.frameOf? name (Scope.ofModule id).frames = none := rfl
  have hhome : (Scope.ofModule id).home = id := rfl
  rw [find, hframe, hhome, hsearch]
  cases r <;> rfl

/-- Where the search for a variable ends, it is found at the end of the first import path, and it
is not found exactly where there is no path. A variable that a module does not export is found from
no other module, whether the search ends or not. -/
theorem find_iff_leadsFirst (m : Machine) (name : String) (id : Nat) :
    ((∃ r, m.Finds (·.vars.has name) name id r) →
      (∀ home, m.find name (.ofModule id) = .home home ↔
        ∃ path, m.LeadsFirst (·.vars.has name) name id path home) ∧
      (m.find name (.ofModule id) = .absent ↔
        ∀ path home, ¬ m.Leads (·.vars.has name) name id path home)) ∧
    ∀ frames home, home ≠ id → name ∉ (m.module home).exports →
      m.find name ⟨frames, id⟩ ≠ .home home := by
  refine ⟨fun ⟨r, hr⟩ => ?_, fun frames home hne hprivate hfind => ?_⟩
  · rw [find_ofModule_of_finds hr]
    refine ⟨fun home => ?_, ?_⟩
    · rw [← hr.some_iff]
      cases r <;> simp
    · rw [← hr.none_iff]
      cases r <;> simp
  · have hsearch := (find_eq_home_iff.mp hfind).2
    have hr : m.Finds (·.vars.has name) name id (some home) := finds_iff_search.mpr hsearch
    obtain ⟨path, hfirst⟩ := hr.some_iff.mp rfl
    exact hprivate (List.contains_iff_mem.mp (hfirst.1.contains_exports hne))

/-- The last module imports a name twice, from a module that imports it in turn and from one that
defines it; the other name is not exported. -/
def reExports : Machine :=
  ((Engine.ofAllowance 30).evalData none .void [
    .list [.sym "define-module", .sym "a", .list [.sym "export", .sym "x"],
      .list [.sym "define", .sym "x", .int 1], .list [.sym "define", .sym "y", .int 2]],
    .list [.sym "define-module", .sym "b", .list [.sym "export", .sym "x"],
      .list [.sym "import", .sym "a"]],
    .list [.sym "define-module", .sym "c", .list [.sym "export", .sym "x"],
      .list [.sym "define", .sym "x", .int 3]],
    .list [.sym "define-module", .sym "d", .list [.sym "import", .sym "b", .sym "c"]]]).after
    (initial "1.70" true .empty)

theorem find_iff_leadsFirst_reExports :
    (∃ r, reExports.Finds (·.vars.has "x") "x" 5 r) ∧
    (∃ path, reExports.LeadsFirst (·.vars.has "x") "x" 5 path 2) ∧
    (∃ r, reExports.Finds (·.vars.has "y") "y" 5 r) ∧
    (∀ path home, ¬ reExports.Leads (·.vars.has "y") "y" 5 path home) ∧
    "y" ∉ (reExports.module 2).exports ∧ reExports.find "y" (.ofModule 5) ≠ .home 2 := by
  have hx : reExports.search (·.vars.has "x") "x" 5 = .found 2 := by decide +kernel
  have hy : reExports.search (·.vars.has "y") "y" 5 = .absent := by decide +kernel
  have hendsx : ∃ r, reExports.Finds (·.vars.has "x") "x" 5 r :=
    ⟨some 2, finds_iff_search.mpr hx⟩
  have hendsy : ∃ r, reExports.Finds (·.vars.has "y") "y" 5 r := ⟨none, finds_iff_search.mpr hy⟩
  have hprivate : "y" ∉ (reExports.module 2).exports := by decide +kernel
  refine ⟨hendsx, ?_, hendsy, ?_, hprivate, ?_⟩
  · exact (((find_iff_leadsFirst reExports "x" 5).1 hendsx).1 2).mp (by decide +kernel)
  · exact ((find_iff_leadsFirst reExports "y" 5).1 hendsy).2.mp (by decide +kernel)
  · exact (find_iff_leadsFirst reExports "y" 5).2 [] 2 (by decide) hprivate

end LiveScheme.Machine
