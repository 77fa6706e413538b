import LiveScheme.Proofs.Mirror.Sequence

/-!
# Normal values

Every value that a program computes, binds or passes to a procedure is normal, as long as the values
of its quasiquotations are. A template with a dot joins what its elements become to what its tail
becomes as they are, also when all elements were spliced away or when the tail became a pair; every
other way to make a pair keeps the normal form.
-/

namespace LiveScheme

section Decisions

variable {α β : Type} [Checkable α] [Checkable β] (S : Standard)

instance {ι ρ : Type} [Judged ρ] (v : Node ι ρ) : Decidable (Meets S v) :=
  inferInstanceAs (Decidable (v.lives S = true))

instance {γ : Type} [Plain γ] (c : γ) : Decidable (Meets S c) := isTrue (meets_plain S c)

instance [DecidablePred (Meets S : α → Prop)] (l : List α) : Decidable (Meets S l) :=
  inferInstanceAs (Decidable (∀ a ∈ l, Meets S a))

instance [DecidablePred (Meets S : α → Prop)] (a : Array α) : Decidable (Meets S a) :=
  decidable_of_iff (Meets S a.toList) (by simp [Meets])

instance [DecidablePred (Meets S : α → Prop)] [DecidablePred (Meets S : β → Prop)] (p : α × β) :
    Decidable (Meets S p) := inferInstanceAs (Decidable (Meets S p.1 ∧ Meets S p.2))

instance (f : Formals) : Decidable (Meets S f) := inferInstanceAs (Decidable (Meets S f.required))

instance (c : Closure) : Decidable (Meets S c) :=
  inferInstanceAs (Decidable (Meets S c.formals ∧ Meets S c.body))

instance (d : Module) : Decidable (Meets S d) := inferInstanceAs (Decidable (Meets S d.vars))

instance (m : Machine) : Decidable (m.Upholds S) :=
  decidable_of_iff ((m.keywordsAreValues = true → S.keywords = true) ∧ Meets S m.frames ∧
    Meets S m.modules ∧ Meets S m.closures)
    ⟨fun h => ⟨h.1, h.2.1, h.2.2.1, h.2.2.2⟩, fun h => ⟨h.1, h.2, h.3, h.4⟩⟩

end Decisions

namespace Watch

/-- Lets the values of quasiquotations pass when they live up to the standard. -/
def filling (S : Standard) : Watch where
  machines _ := true
  calls _ _ := true
  templates v := decide (Meets S v)
  answers _ := true

/-- Asks at every step that all that the machine holds, every procedure and argument of a call, and
every answer live up to the standard. -/
def vetting (S : Standard) : Watch where
  machines m := decide (m.Upholds S)
  calls proc args := decide (Meets S proc ∧ Meets S args)
  templates v := decide (Meets S v)
  answers v := decide (Meets S v)

variable {S : Standard}

theorem filling_passes_vetting (hS : S.services = false) :
    (filling S).Passes (Link.same S false) (.vetting S) where
  machines hm := by
    obtain ⟨rfl, hm⟩ := hm
    exact .inl (decide_eq_true hm)
  calls hproc hargs := .inl (decide_eq_true ⟨hproc, hargs⟩)
  templates _ := ⟨.inl rfl, of_decide_eq_true⟩
  answers hv := .inl (decide_eq_true hv)
  services h := absurd (h.symm.trans hS) (by decide)
  version _ := Link.same_keeps_version _

theorem filling_passes_idle (hS : S.services = false) :
    (filling S).Passes (Link.same S true) .idle where
  machines _ := .inl rfl
  calls _ _ := .inl rfl
  templates {v} _ := by
    refine ⟨?_, of_decide_eq_true⟩
    cases h : (filling S).templates v with
    | true => exact .inl rfl
    | false => exact .inr ⟨rfl, Link.forgiving_same⟩
  answers _ := .inl rfl
  services h := absurd (h.symm.trans hS) (by decide)
  version _ := Link.same_keeps_version _

end Watch

/-- Forms that were read are evaluated one after another on a new runtime, while the values of their
quasiquotations are watched. Then everything is normal: the watch misses nothing that asking of the
whole machine, of every procedure and argument of a call and of every answer at every step would
notice, and the machines that are left hold normal values only, as do the answers. Where the watch
does not stop a form, all of them end as without it. -/
theorem Engine.evalEach_normal {version : String} {disk : Disk} {m : Machine}
    (hm : Machine.fresh version disk = .ok m) (allowance : Nat) {forms : List Datum}
    (hforms : ∀ form ∈ forms, ∃ text data, Datum.readAll text = .ok data ∧ form ∈ data) :
    (watched (.vetting .normal) allowance).evalEach forms m =
      (watched (.filling .normal) allowance).evalEach forms m ∧
    (∀ ending ∈ (watched (.filling .normal) allowance).evalEach forms m,
      ending.machine.Upholds .normal ∧ ∀ v, ending.outcome = .ok v → Meets .normal v) ∧
    ((∀ ending ∈ (watched (.filling .normal) allowance).evalEach forms m, ¬ ending.GivesUp) →
      (ofAllowance allowance).evalEach forms m =
        (watched (.filling .normal) allowance).evalEach forms m) := by
  have hnormal : Meets Standard.normal forms := fun form hform => by
    obtain ⟨text, data, hread, hmem⟩ := hforms form hform
    exact Datum.meets_readAll hread form hmem
  have hupholds : m.Upholds .normal := by
    obtain ⟨modern, rfl⟩ := Machine.fresh_eq_ok hm
    exact Machine.upholds_initial (fun _ => rfl) _ _
  have hplain := mirrors_performWatched (Watch.filling_passes_idle (S := .normal) rfl) allowance
  have hvetted := mirrors_performWatched (Watch.filling_passes_vetting (S := .normal) rfl) allowance
  rw [watched_idle] at hplain
  exact ⟨evalEach_eq hvetted hnormal hupholds nofun, upholds_evalEach hvetted hnormal hupholds,
    fun h => evalEach_eq hplain hnormal hupholds fun _ => h⟩

/-- A template with a splice and a dot, and a pair made by it that is taken apart. -/
def pairForms : List Datum :=
  (Datum.readAll "(define (f x . more) `(,x ,@more . end)) (cdr (f 1 2))").toOption.getD []

theorem Engine.evalEach_normal_pairs :
    (watched (.vetting .normal) 20).evalEach pairForms (.initial "2.10" true .empty) =
      (ofAllowance 20).evalEach pairForms (.initial "2.10" true .empty) ∧
    ((ofAllowance 20).evalEach pairForms (.initial "2.10" true .empty)).map (fun ending =>
      ending.outcome.toOption.map ending.machine.write) =
      [some "#void", some "(2 . end)"] := by
  have hfresh : Machine.fresh "2.10" .empty = .ok (.initial "2.10" true .empty) := by
    have hparse : Version.parse "2.10" = .ok [2, 10] := by decide +kernel
    exact Machine.fresh_of_parse hparse .empty
  have hread : ∀ form ∈ pairForms, ∃ text data, Datum.readAll text = .ok data ∧ form ∈ data := by
    intro form hform
    unfold pairForms at hform
    generalize htext : Datum.readAll _ = r at hform
    cases r with
    | error e => cases hform
    | ok data => exact ⟨_, data, htext, hform⟩
  obtain ⟨hvetted, -, hplain⟩ := evalEach_normal hfresh 20 hread
  exact ⟨hvetted.trans (hplain (by decide +kernel)).symm, by decide +kernel⟩

end LiveScheme
