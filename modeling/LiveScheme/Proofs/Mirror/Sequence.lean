import LiveScheme.Proofs.Mirror.Services
import Mathlib.Data.List.Forall2

/-!
# Sequences of forms

Forms are evaluated one after another on one machine, each in the module that is then current, and
an error in one does not keep the next from its turn. Two engines that mirror each other end every
form of a sequence in the same way, as long as nothing excuses the second or loses the comparison.
-/

namespace LiveScheme

/-- How an evaluation ended, and the machine that it left. -/
structure Ending where
  outcome : Except Stop Value
  machine : Machine

namespace Ending

def ofResult : EStateM.Result Stop Machine Value → Ending
  | .ok v m => ⟨.ok v, m⟩
  | .error stop m => ⟨.error stop, m⟩

/-- The evaluation used up its allowance, or its watch stopped it. -/
def GivesUp (ending : Ending) : Prop := ending.outcome = .error .endless

instance (ending : Ending) : Decidable ending.GivesUp :=
  match ending with
  | ⟨.error .endless, _⟩ => isTrue rfl
  | ⟨.ok _, _⟩ | ⟨.error (.error _), _⟩ | ⟨.error (.fault _), _⟩ | ⟨.error (.exit _), _⟩ =>
    isFalse nofun

end Ending

namespace Engine

def evalForm (g : Engine) (form : Datum) (m : Machine) : Ending :=
  .ofResult (g.evalData none .void [form] m)

/-- The endings of all the forms of a sequence. -/
def evalEach (g : Engine) : List Datum → Machine → List Ending
  | [], _ => []
  | form :: rest, m =>
    let ending := g.evalForm form m
    ending :: g.evalEach rest ending.machine

end Engine

open Link

section Follows

variable {L : Link} [L.Lawful] {g g' : Engine}

/-- Nothing stands in the way of going on with the comparison. -/
def Link.Continues (L : Link) (ending : Ending) : Prop :=
  ¬ L.lost ending.machine ∧ ∀ stop, ending.outcome = .error stop → ¬ L.excused stop ending.machine

/-- The second ending is the same as the first, on a related machine. -/
structure Link.Agree (L : Link) (ending ending' : Ending) : Prop where
  outcome : ending'.outcome = ending.outcome
  machine : L.related ending.machine ending'.machine
  meets : ∀ v, ending.outcome = .ok v → Meets L.standard v

theorem Engine.Mirrors.evalForm (hg : g.Mirrors L g') {form : Datum} (hform : Meets L.standard form)
    {m m' : Machine} (hm : L.related m m') (h : L.Continues (g.evalForm form m)) :
    L.Agree (g.evalForm form m) (g'.evalForm form m') := by
  have hdata : Meets L.standard [form] := meets_cons.mpr ⟨hform, meets_nil.mpr trivial⟩
  have hmirrors := hg.evalData none meets_void hdata
  unfold Engine.evalForm at h ⊢
  cases hx : g.evalData none .void [form] m with
  | ok v n =>
    rw [hx] at h
    obtain ⟨hv, hlost | ⟨n', hx', hn⟩⟩ := hmirrors.ok hm hx
    · exact absurd hlost h.1
    · rw [hx']
      refine ⟨rfl, hn, fun w hw => ?_⟩
      cases hw
      exact hv
  | error stop n =>
    rw [hx] at h
    rcases hmirrors.error hm hx with hlost | hexcused | ⟨n', hx', hn⟩
    · exact absurd hlost h.1
    · exact absurd hexcused (h.2 stop rfl)
    · rw [hx']
      exact ⟨rfl, hn, fun w hw => by cases hw⟩

theorem Engine.Mirrors.evalEach (hg : g.Mirrors L g') {forms : List Datum}
    (hforms : Meets L.standard forms) {m m' : Machine} (hm : L.related m m')
    (h : ∀ ending ∈ g.evalEach forms m, L.Continues ending) :
    List.Forall₂ L.Agree (g.evalEach forms m) (g'.evalEach forms m') := by
  induction forms generalizing m m' with
  | nil => exact .nil
  | cons form rest ih =>
    obtain ⟨hform, hrest⟩ := meets_cons.mp hforms
    have hagree := hg.evalForm hform hm (h _ List.mem_cons_self)
    exact .cons hagree (ih hrest hagree.machine fun ending hmem =>
      h ending (List.mem_cons_of_mem _ hmem))

end Follows

section Same

variable {S : Standard} {lax : Bool} {g g' : Engine}

/-- Whatever the outcome, the machine that is left upholds the standard. -/
theorem upholds_evalForm (hg : g.Mirrors (same S lax) g') {form : Datum} (hform : Meets S form)
    {m : Machine} (hm : m.Upholds S) :
    (g.evalForm form m).machine.Upholds S ∧
      ∀ v, (g.evalForm form m).outcome = .ok v → Meets S v := by
  have hdata : Meets S [form] := meets_cons.mpr ⟨hform, meets_nil.mpr trivial⟩
  unfold Engine.evalForm
  rcases same_cases (hg.evalData none meets_void hdata) hm with ⟨-, n, hend, hn⟩ | ⟨-, hn, hmeets⟩
  · rw [hend]
    exact ⟨hn, fun v hv => by cases hv⟩
  · cases hx : g.evalData none .void [form] m with
    | ok v n =>
      rw [Run.after_of_ok hx] at hn
      refine ⟨hn, fun w hw => ?_⟩
      cases hw
      exact hmeets v n hx
    | error stop n =>
      rw [Run.after_of_error hx] at hn
      exact ⟨hn, fun v hv => by cases hv⟩

theorem upholds_evalEach (hg : g.Mirrors (same S lax) g') {forms : List Datum}
    (hforms : Meets S forms) {m : Machine} (hm : m.Upholds S) :
    ∀ ending ∈ g.evalEach forms m,
      ending.machine.Upholds S ∧ ∀ v, ending.outcome = .ok v → Meets S v := by
  induction forms generalizing m with
  | nil => exact fun ending h => absurd h List.not_mem_nil
  | cons form rest ih =>
    obtain ⟨hform, hrest⟩ := meets_cons.mp hforms
    have hfirst := upholds_evalForm hg hform hm
    intro ending hmem
    rcases List.mem_cons.mp hmem with rfl | hmem
    · exact hfirst
    · exact ih hrest hfirst.1 ending hmem

/-- The endings are the same, as long as none of them is one that may be excused. -/
theorem evalEach_eq (hg : g.Mirrors (same S lax) g') {forms : List Datum} (hforms : Meets S forms)
    {m : Machine} (hm : m.Upholds S)
    (h : lax = true → ∀ ending ∈ g.evalEach forms m, ¬ ending.GivesUp) :
    g'.evalEach forms m = g.evalEach forms m := by
  have hagree := hg.evalEach hforms ⟨rfl, hm⟩ fun ending hmem =>
    ⟨not_false, fun stop hstop hexcused =>
      h hexcused.1 ending hmem (hstop.trans (congrArg _ hexcused.2.1))⟩
  have heq : List.Forall₂ Eq (g.evalEach forms m) (g'.evalEach forms m) := by
    refine hagree.imp fun ending ending' hsame => ?_
    cases ending
    cases ending'
    obtain ⟨rfl, ⟨rfl, -⟩, -⟩ := hsame
    rfl
  exact (List.forall₂_eq_eq_eq ▸ heq : g.evalEach forms m = g'.evalEach forms m).symm

end Same

end LiveScheme
