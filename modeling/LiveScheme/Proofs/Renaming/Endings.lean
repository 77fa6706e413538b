import LiveScheme.Proofs.Mirror.Sequence
import LiveScheme.Proofs.Renaming.Closed

/-!
# How programs end

A program over an engine ends in the way in which it does within some allowance that it does not use
up; a larger allowance changes nothing. Two programs agree on a machine when each of them ends as
the other one does, but for the numbers and places of what they make.
-/

namespace LiveScheme

open Renaming

section Steps

/-- What is left to do after a step. -/
def Engine.finish (g : Engine) : Step → Run Value
  | .done v => return v
  | .again e s => g.eval e s

/-- Evaluation takes a step and finishes it. -/
theorem Engine.eval_succ (allowance : Nat) (e : Value) (s : Scope) :
    (Engine.ofAllowance (allowance + 1)).eval e s =
      (Engine.ofAllowance allowance).step s e >>= (Engine.ofAllowance allowance).finish := by
  change performWithin (allowance + 1) (.eval e s) = _
  unfold performWithin
  congr 1

theorem Engine.Follows.finish {ρ : Comparison} {lax : Bool} {g g' : Engine}
    (hg : g.Follows ρ lax g') (next : Step) :
    ρ.Follows lax (g.finish next) (g'.finish (ρ.on next)) := by
  cases next with
  | done v => exact .pure rfl
  | again e s => exact hg.eval e s

end Steps

namespace Comparison

/-- Nothing is renamed: what is compared is a program with two allowances. -/
def same (tagLimit placeLimit : Nat) : Comparison := ⟨identity, tagLimit, placeLimit⟩

theorem on_same {α : Type} [Renames α] [Steady α] (t p : Nat) (a : α) : (same t p).on a = a :=
  on_identity a

theorem map_same {α : Type} [Renames α] [Steady α] (t p : Nat) (a : Array α) :
    a.map (same t p).on = a := by
  apply Array.ext_getElem?
  intro id
  rw [Array.getElem?_map]
  exact on_same t p a[id]?

theorem related_same (t p : Nat) (m : Machine) : (same t p).Related m m where
  version := rfl
  keywordsAreValues := rfl
  modules := (map_same t p _).symm
  frames := (map_same t p _).symm
  closures _ := (on_same t p _).symm
  connections := rfl
  current := rfl
  console := rfl
  disk := rfl
  tags _ _ := rfl
  places _ _ := rfl

theorem eq_of_related_same {t p : Nat} {n n' : Machine} (h : (same t p).Related n n')
    (ht : n.nextTag < t) : n' = n := by
  have hmodules : n'.modules = n.modules := h.modules.trans (map_same t p _)
  have hframes : n'.frames = n.frames := h.frames.trans (map_same t p _)
  have hclosures : n'.closures = n.closures := Array.ext_getElem? fun id =>
    (h.closures id).trans (on_same t p _)
  have htag : n.nextTag = n'.nextTag := h.tags 0 ht
  obtain ⟨version, keywordsAreValues, -, -, -, connections, current, console, disk, -, -⟩ := h
  cases n
  cases n'
  simp_all

/-- What a run comes to, one that does the same with a larger allowance comes to as well. -/
theorem eq_of_follows {α : Type} [Renames α] [Steady α] {x x' : Run α}
    (h : ∀ t p, (same t p).Follows true x x') {m : Machine}
    (hends : ∀ n, x m ≠ .error .endless n) : x' m = x m := by
  have hmatches := (h ((x.after m).nextTag + 1) (x.after m).closures.size).run
    (related_same _ _ m) ⟨Nat.le_succ _, Nat.le_refl _⟩
  cases hrun : x m with
  | ok a n =>
    rw [Run.after_of_ok hrun, hrun] at hmatches
    obtain ⟨n', hrun', hn⟩ := hmatches.exists_ok
    rw [hrun', on_same, eq_of_related_same hn (Nat.lt_succ_self _)]
  | error stop n =>
    rw [Run.after_of_error hrun, hrun] at hmatches
    obtain ⟨-, rfl⟩ | ⟨n', hrun', hn⟩ := hmatches.exists_error
    · exact absurd hrun (hends n)
    · rw [hrun', eq_of_related_same hn (Nat.lt_succ_self _)]

end Comparison

namespace Ending

/-- The endings differ at most in the numbers and the places of what was made since. -/
def Alike (m : Machine) (ending ending' : Ending) : Prop :=
  ∃ ρ : Comparison, ρ.Fixes m ∧ ending'.outcome = ρ.on ending.outcome ∧
    ρ.Related ending.machine ending'.machine

theorem givesUp_ofResult {r : EStateM.Result Stop Machine Value} :
    (ofResult r).GivesUp ↔ ∃ n, r = .error .endless n := by
  cases r with
  | ok v n => exact ⟨nofun, nofun⟩
  | error stop n =>
    refine ⟨fun h => ?_, fun ⟨k, h⟩ => ?_⟩
    · cases h
      exact ⟨n, rfl⟩
    · cases h
      rfl

/-- Runs that match strictly end alike, and both of them give up or none does. -/
theorem of_matches {ρ : Comparison} {r r' : EStateM.Result Stop Machine Value} {m : Machine}
    (hρ : ρ.Fixes m) (h : ρ.Matches false r r') :
    Alike m (ofResult r) (ofResult r') ∧ ((ofResult r).GivesUp ↔ (ofResult r').GivesUp) := by
  cases r with
  | ok v n =>
    obtain ⟨n', rfl, hn⟩ := h.exists_ok
    exact ⟨⟨ρ, hρ, rfl, hn⟩, nofun, nofun⟩
  | error stop n =>
    obtain ⟨hlax, -⟩ | ⟨n', rfl, hn⟩ := h.exists_error
    · cases hlax
    · exact ⟨⟨ρ, hρ, rfl, hn⟩, id, id⟩

end Ending

/-- The program ends so within some allowance that it does not use up. -/
def Ends (x : Engine → Run Value) (m : Machine) (ending : Ending) : Prop :=
  ∃ allowance, .ofResult (x (.ofAllowance allowance) m) = ending ∧ ¬ ending.GivesUp

/-- However one of the programs ends, the other one ends alike. -/
structure AgreeOn (m : Machine) (x x' : Engine → Run Value) : Prop where
  forth : ∀ ending, Ends x m ending → ∃ ending', Ends x' m ending' ∧ ending.Alike m ending'
  back : ∀ ending', Ends x' m ending' → ∃ ending, Ends x m ending ∧ ending.Alike m ending'

/-- A program that does the same with a larger allowance. -/
def Lasting (x : Engine → Run Value) : Prop :=
  ∀ t p {g g' : Engine}, g.Follows (.same t p) true g' →
    (Comparison.same t p).Follows true (x g) (x g')

theorem Lasting.eq {x : Engine → Run Value} (hx : Lasting x) {a a' : Nat} (hle : a ≤ a')
    {m : Machine} (hends : ¬ (Ending.ofResult (x (.ofAllowance a) m)).GivesUp) :
    x (.ofAllowance a') m = x (.ofAllowance a) m :=
  Comparison.eq_of_follows (fun t p => hx t p (Engine.follows_ofAllowance hle nofun)) fun n hn =>
    hends (Ending.givesUp_ofResult.mpr ⟨n, hn⟩)

theorem lasting_eval (e : Value) (s : Scope) : Lasting fun g => g.eval e s := by
  intro t p g g' hg
  have heval := hg.eval e s
  rwa [Comparison.on_same] at heval

/-- A program over two engines that does the same with larger allowances. -/
def LastingBoth (core : Engine → Engine → Run Value) : Prop :=
  ∀ t p {g g' k k' : Engine}, g.Follows (.same t p) true g' → k.Follows (.same t p) true k' →
    (Comparison.same t p).Follows true (core g k) (core g' k')

theorem LastingBoth.eq {core : Engine → Engine → Run Value} (hcore : LastingBoth core)
    {a a' b b' : Nat} (ha : a ≤ a') (hb : b ≤ b') {m : Machine}
    (hends : ¬ (Ending.ofResult (core (.ofAllowance a) (.ofAllowance b) m)).GivesUp) :
    core (.ofAllowance a') (.ofAllowance b') m = core (.ofAllowance a) (.ofAllowance b) m :=
  Comparison.eq_of_follows (fun t p => hcore t p (Engine.follows_ofAllowance ha nofun)
    (Engine.follows_ofAllowance hb nofun)) fun n hn =>
      hends (Ending.givesUp_ofResult.mpr ⟨n, hn⟩)

/-- Two programs agree when one of them does what a core does within one allowance, and the other
one, on a related machine, what the core does within two allowances of its own. -/
theorem AgreeOn.of_core {core : Engine → Engine → Run Value} (hcore : LastingBoth core)
    {x x' : Engine → Run Value} (hx : Lasting x) (hx' : Lasting x') {m : Machine}
    (cost cost' : Nat) (less : Nat → Nat) (hless : ∀ a, less a ≤ a ∧ a ≤ less (a + 1))
    (hplain : ∀ a, 2 ≤ a → x (.ofAllowance (a + cost)) m =
      core (.ofAllowance a) (.ofAllowance a) m)
    (hother : ∀ a, 2 ≤ a → ∃ ρ : Comparison, ρ.Fixes m ∧ ρ.Matches false
      (core (.ofAllowance a) (.ofAllowance (less a)) m) (x' (.ofAllowance (a + cost')) m)) :
    AgreeOn m x x' := by
  refine ⟨?_, ?_⟩
  · rintro ending ⟨a, rfl, hends⟩
    have hlarger : x (.ofAllowance (a + 2 + cost)) m = x (.ofAllowance a) m :=
      hx.eq (by omega) hends
    rw [hplain (a + 2) (by omega)] at hlarger
    rw [← hlarger] at hends ⊢
    have hcored := hcore.eq (Nat.le_succ (a + 2)) (hless (a + 2)).2 hends
    obtain ⟨ρ, hρ, hmatches⟩ := hother (a + 3) (by omega)
    rw [hcored] at hmatches
    obtain ⟨halike, hgives⟩ := Ending.of_matches hρ hmatches
    exact ⟨_, ⟨a + 3 + cost', rfl, fun h => hends (hgives.mpr h)⟩, halike⟩
  · rintro ending' ⟨a, rfl, hends⟩
    have hlarger : x' (.ofAllowance (a + 2 + cost')) m = x' (.ofAllowance a) m :=
      hx'.eq (by omega) hends
    rw [← hlarger] at hends ⊢
    obtain ⟨ρ, hρ, hmatches⟩ := hother (a + 2) (by omega)
    obtain ⟨halike, hgives⟩ := Ending.of_matches hρ hmatches
    have hcored := hcore.eq (Nat.le_refl (a + 2)) (hless (a + 2)).1 fun h => hends (hgives.mp h)
    rw [← hcored, ← hplain (a + 2) (by omega)] at halike hgives
    exact ⟨_, ⟨a + 2 + cost, rfl, fun h => hends (hgives.mp h)⟩, halike⟩

end LiveScheme
