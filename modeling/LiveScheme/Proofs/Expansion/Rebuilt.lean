import LiveScheme.Proofs.Expansion.Descent
import LiveScheme.Proofs.Renaming.Endings
import Mathlib.Data.Nat.Count

/-!
# Forms without expanders

Full expansion of a form in which it meets no expander gives the same form, but for vectors, which
it rebuilds as lists, and for the identities of what it rebuilds. A form just read is numbered from
its parts up, and so is what is rebuilt of it: the numbers of the rebuilt parts are given out again
in the same order. So the two forms differ by a renaming, and they evaluate alike.
-/

namespace LiveScheme

open Node

namespace Expansion

section Numbering

mutual

/-- The identities in the value are the numbers between two others, given out to the parts of a
compound value before it gets its own. -/
def Numbered : Nat → Value → Nat → Prop
  | lo, .real tag _, hi | lo, .str tag _, hi => tag = .fresh lo ∧ hi = lo + 1
  | lo, .list tag items, hi | lo, .vector tag items, hi =>
    ∃ t, NumberedAll lo items t ∧ tag = .fresh t ∧ hi = t + 1
  | lo, .improper tag items tail, hi =>
    ∃ mid t, NumberedAll lo items mid ∧ Numbered mid tail t ∧ tag = .fresh t ∧ hi = t + 1
  | lo, .bool _, hi | lo, .int _, hi | lo, .char _, hi | lo, .sym _, hi => hi = lo
  | _, .object _ _, _ => False

def NumberedAll : Nat → List Value → Nat → Prop
  | lo, [], hi => hi = lo
  | lo, v :: rest, hi => ∃ mid, Numbered lo v mid ∧ NumberedAll mid rest hi

end

mutual

/-- What is read is numbered, and nothing else on the machine has changed. -/
theorem numbered_ofDatum : ∀ {d : Datum} {v : Value} {m n : Machine},
    Run.ofDatum d m = .ok v n →
      Numbered m.nextTag v n.nextTag ∧ n = { m with nextTag := n.nextTag }
  | .bool _, _, _, _, h | .int _, _, _, _, h | .char _, _, _, _, h | .sym _, _, _, _, h => by
    cases h
    exact ⟨rfl, rfl⟩
  | .real _, _, _, _, h | .str _, _, _, _, h => by
    cases h
    exact ⟨⟨rfl, rfl⟩, rfl⟩
  | .list items, _, _, _, h | .vector items, _, _, _, h => by
    unfold Run.ofDatum at h
    obtain ⟨vs, k, hitems, h⟩ := exists_of_bind_ok h
    obtain ⟨hvs, hk⟩ := numbered_ofData hitems
    cases h
    exact ⟨⟨_, hvs, rfl, rfl⟩, by rw [hk]⟩
  | .improper items tail, _, _, _, h => by
    unfold Run.ofDatum at h
    obtain ⟨vs, k, hitems, h⟩ := exists_of_bind_ok h
    obtain ⟨v, l, htail, h⟩ := exists_of_bind_ok h
    obtain ⟨hvs, hk⟩ := numbered_ofData hitems
    obtain ⟨hv, hl⟩ := numbered_ofDatum htail
    cases h
    exact ⟨⟨_, _, hvs, hv, rfl, rfl⟩, by rw [hl, hk]⟩
  | .object kind _, _, _, _, _ => kind.elim

theorem numbered_ofData : ∀ {ds : List Datum} {vs : List Value} {m n : Machine},
    Run.ofData ds m = .ok vs n →
      NumberedAll m.nextTag vs n.nextTag ∧ n = { m with nextTag := n.nextTag }
  | [], _, _, _, h => by
    cases h
    exact ⟨rfl, rfl⟩
  | d :: rest, _, _, _, h => by
    unfold Run.ofData at h
    obtain ⟨v, k, hd, h⟩ := exists_of_bind_ok h
    obtain ⟨vs, l, hrest, h⟩ := exists_of_bind_ok h
    obtain ⟨hv, hk⟩ := numbered_ofDatum hd
    obtain ⟨hvs, hl⟩ := numbered_ofData hrest
    cases h
    exact ⟨⟨_, hv, hvs⟩, by rw [hl, hk]⟩

end

mutual

theorem Numbered.le : ∀ {v : Value} {lo hi : Nat}, Numbered lo v hi → lo ≤ hi
  | .list _ _, _, _, ⟨_, hitems, _, hhi⟩ | .vector _ _, _, _, ⟨_, hitems, _, hhi⟩ =>
    hhi ▸ Nat.le_succ_of_le hitems.le
  | .improper _ _ _, _, _, ⟨_, _, hitems, htail, _, hhi⟩ =>
    hhi ▸ Nat.le_succ_of_le (Nat.le_trans hitems.le htail.le)
  | .real _ _, _, _, h | .str _ _, _, _, h => h.2 ▸ Nat.le_succ _
  | .bool _, _, _, h | .int _, _, _, h | .char _, _, _, h | .sym _, _, _, h => Nat.le_of_eq h.symm

theorem NumberedAll.le : ∀ {vs : List Value} {lo hi : Nat}, NumberedAll lo vs hi → lo ≤ hi
  | [], _, _, h => Nat.le_of_eq h.symm
  | _ :: _, _, _, ⟨_, hv, hrest⟩ => Nat.le_trans hv.le hrest.le

end

mutual

/-- A renaming that changes none of the numbers in a value does not change the value. -/
theorem Numbered.on_eq {ρ : Renaming} : ∀ {v : Value} {lo hi : Nat}, Numbered lo v hi →
    (∀ t, lo ≤ t → t < hi → ρ.tag t = t) → ρ.on v = v
  | .list _ items, lo, _, ⟨t, hitems, htag, hhi⟩, h
  | .vector _ items, lo, _, ⟨t, hitems, htag, hhi⟩, h => by
    subst htag hhi
    have hon : ρ.on items = items := hitems.on_eq fun k hk hlt => h k hk (Nat.lt_succ_of_lt hlt)
    simp only [Renaming.on_list, Renaming.on_vector, Renaming.on_fresh, hon,
      h t hitems.le (Nat.lt_succ_self t)]
  | .improper _ items tail, lo, _, ⟨mid, t, hitems, htail, htag, hhi⟩, h => by
    subst htag hhi
    have hle := htail.le
    have hle' := hitems.le
    have hon : ρ.on items = items := hitems.on_eq fun k hk hlt => h k hk (by omega)
    have hon' : ρ.on tail = tail := htail.on_eq fun k hk hlt => h k (by omega) (by omega)
    simp only [Renaming.on_improper, Renaming.on_fresh, hon, hon',
      h t (by omega) (Nat.lt_succ_self t)]
  | .real _ _, lo, _, ⟨htag, hhi⟩, h | .str _ _, lo, _, ⟨htag, hhi⟩, h => by
    subst htag hhi
    simp only [Renaming.on_real, Renaming.on_str, Renaming.on_fresh,
      h lo (Nat.le_refl lo) (Nat.lt_succ_self lo)]
  | .bool _, _, _, _, _ | .int _, _, _, _, _ | .char _, _, _, _, _ | .sym _, _, _, _, _ => rfl

theorem NumberedAll.on_eq {ρ : Renaming} : ∀ {vs : List Value} {lo hi : Nat},
    NumberedAll lo vs hi → (∀ t, lo ≤ t → t < hi → ρ.tag t = t) → ρ.on vs = vs
  | [], _, _, _, _ => rfl
  | v :: rest, _, _, ⟨mid, hv, hrest⟩, h => by
    have hle := hv.le
    have hle' := hrest.le
    rw [Renaming.on_cons, hv.on_eq fun t ht hlt => h t ht (by omega),
      hrest.on_eq fun t ht hlt => h t (by omega) hlt]

end

end Numbering

section Renumbering

mutual

/-- The identities of the parts that are made anew. -/
def rebuilt : Value → List Identity
  | .list tag items => if isOpen items then rebuiltIn items ++ [tag] else []
  | .improper tag items _ => rebuiltIn items ++ [tag]
  | _ => []

def rebuiltIn : List Value → List Identity
  | [] => []
  | v :: rest => rebuilt v ++ rebuiltIn rest

end

mutual

theorem Numbered.bounds : ∀ {v : Value} {lo hi : Nat}, Numbered lo v hi →
    ∀ {t : Nat}, .fresh t ∈ rebuilt v → lo ≤ t ∧ t < hi
  | .list tag items, lo, hi, ⟨t', hitems, htag, hhi⟩, t, ht => by
    subst htag hhi
    have hle := hitems.le
    rw [rebuilt] at ht
    split at ht
    · rcases List.mem_append.mp ht with hin | hown
      · have hbounds := hitems.bounds hin
        omega
      · cases List.mem_singleton.mp hown
        omega
    · cases ht
  | .improper tag items tail, lo, hi, ⟨mid, t', hitems, htail, htag, hhi⟩, t, ht => by
    subst htag hhi
    have hle := hitems.le
    have hle' := htail.le
    rw [rebuilt] at ht
    rcases List.mem_append.mp ht with hin | hown
    · have hbounds := hitems.bounds hin
      omega
    · cases List.mem_singleton.mp hown
      omega

theorem NumberedAll.bounds : ∀ {vs : List Value} {lo hi : Nat}, NumberedAll lo vs hi →
    ∀ {t : Nat}, .fresh t ∈ rebuiltIn vs → lo ≤ t ∧ t < hi
  | v :: rest, lo, hi, ⟨mid, hv, hrest⟩, t, ht => by
    have hle := hv.le
    have hle' := hrest.le
    rcases List.mem_append.mp ht with hin | hin
    · have hbounds := hv.bounds hin
      omega
    · have hbounds := hrest.bounds hin
      omega

end

/-- Some of the numbers below a bound are given out again from the bound on, in their order, and all
numbers from the bound on make room for them. -/
def renumbering (p : Nat → Prop) [DecidablePred p] (bound : Nat) : Renaming where
  tag t := if t < bound then (if p t then bound + Nat.count p t else t) else t + Nat.count p bound
  place := id
  tag_injective a b h := by
    have hlt : ∀ {t}, p t → t < bound → Nat.count p t < Nat.count p bound :=
      fun ht hbound => Nat.count_strict_mono ht hbound
    dsimp only at h
    by_cases ha : a < bound <;> by_cases hb : b < bound
    · rw [if_pos ha, if_pos hb] at h
      split at h <;> split at h
      · next hpa hpb => exact Nat.count_injective hpa hpb (Nat.add_left_cancel h)
      · omega
      · omega
      · exact h
    · rw [if_pos ha, if_neg hb] at h
      split at h
      · next hpa =>
        have hcount := hlt hpa ha
        omega
      · omega
    · rw [if_neg ha, if_pos hb] at h
      split at h
      · next hpb =>
        have hcount := hlt hpb hb
        omega
      · omega
    · rw [if_neg ha, if_neg hb] at h
      omega
  place_injective := Function.injective_id

variable {p : Nat → Prop} [DecidablePred p] {bound : Nat}

theorem renumbering_of_not {t : Nat} (ht : t < bound) (hp : ¬ p t) :
    (renumbering p bound).tag t = t := by
  change (if t < bound then (if p t then _ else _) else _) = t
  rw [if_pos ht, if_neg hp]

theorem renumbering_of {t : Nat} (ht : t < bound) (hp : p t) :
    (renumbering p bound).tag t = bound + Nat.count p t := by
  change (if t < bound then (if p t then _ else _) else _) = _
  rw [if_pos ht, if_pos hp]

theorem count_eq_of_not {lo hi : Nat} (hle : lo ≤ hi) (h : ∀ t, lo ≤ t → t < hi → ¬ p t) :
    Nat.count p hi = Nat.count p lo := by
  induction hi, hle using Nat.le_induction with
  | base => rfl
  | succ hi hle ih =>
    rw [Nat.count_succ, if_neg (h hi hle (Nat.lt_succ_self hi)), Nat.add_zero,
      ih fun t ht hlt => h t ht (Nat.lt_succ_of_lt hlt)]

/-- What is left as it is keeps its numbers. -/
theorem relist_of_not {v : Value} {lo hi : Nat} (hv : Numbered lo v hi) (hbound : hi ≤ bound)
    (hp : ∀ t, lo ≤ t → t < hi → ¬ p t) (hrelist : relist v = pure v) {m : Machine} :
    relist v (m.skip (Nat.count p lo)) =
      .ok ((renumbering p bound).on v) (m.skip (Nat.count p hi)) := by
  rw [hrelist, count_eq_of_not hv.le hp, hv.on_eq fun t ht hlt =>
    renumbering_of_not (Nat.lt_of_lt_of_le hlt hbound) (hp t ht hlt)]
  rfl

mutual

/-- What is rebuilt of a numbered form gets the numbers that the renumbering says. -/
theorem relist_numbered : ∀ {v : Value} {lo hi : Nat}, Numbered lo v hi → keepsKinds v = true →
    hi ≤ bound → (∀ t, lo ≤ t → t < hi → (p t ↔ .fresh t ∈ rebuilt v)) →
    ∀ {m : Machine}, m.nextTag = bound → relist v (m.skip (Nat.count p lo)) =
      .ok ((renumbering p bound).on v) (m.skip (Nat.count p hi))
  | .list _ items, lo, _, hv@⟨t, hitems, htag, hhi⟩, hkeeps, hbound, hp, m, hm => by
    subst htag hhi
    cases hopen : isOpen items with
    | false =>
      refine relist_of_not hv hbound (fun k hk hlt => ?_) ?_
      · rw [hp k hk hlt, rebuilt, hopen]
        exact List.not_mem_nil
      · rw [relist, hopen]
        rfl
    | true =>
      rw [rebuilt, hopen, if_pos rfl] at hp
      rw [keepsKinds, hopen] at hkeeps
      -- the list gets its number after its elements, before as after
      have hpt : p t := (hp t hitems.le (Nat.lt_succ_self t)).mpr (by simp)
      have hrun := relistIn_numbered hitems hkeeps (Nat.le_of_succ_le hbound)
        (fun k hk hlt => (hp k hk (Nat.lt_succ_of_lt hlt)).trans (by simp [Nat.ne_of_lt hlt])) hm
      rw [relist, hopen, if_pos rfl, bind_of_ok hrun, Run.newList_eq, Renaming.on_list,
        Renaming.on_fresh, renumbering_of hbound hpt, Machine.skip_skip, Nat.count_succ,
        if_pos hpt, ← hm]
      rfl
  | .vector _ items, lo, _, hv, hkeeps, hbound, hp, m, _ => by
    have hopen : isOpen items = false := by simpa [keepsKinds] using hkeeps
    refine relist_of_not hv hbound (fun k hk hlt => ?_) ?_
    · rw [hp k hk hlt]
      exact List.not_mem_nil
    · rw [relist, hopen]
      rfl
  | .improper _ items tail, lo, _, ⟨mid, t, hitems, htail, htag, hhi⟩, hkeeps, hbound, hp, m,
      hm => by
    subst htag hhi
    rw [rebuilt] at hp
    rw [keepsKinds] at hkeeps
    have hle := hitems.le
    have hle' := htail.le
    have hpt : p t := (hp t (by omega) (Nat.lt_succ_self t)).mpr (by simp)
    -- the tail stays, so none of its numbers is given out again
    have hnot : ∀ k, mid ≤ k → k < t → ¬ p k := fun k hk hlt hpk => by
      rcases List.mem_append.mp ((hp k (by omega) (by omega)).mp hpk) with hin | hown
      · have hbounds := hitems.bounds hin
        omega
      · cases List.mem_singleton.mp hown
        omega
    have hrun := relistIn_numbered hitems hkeeps (Nat.le_trans hle' (Nat.le_of_succ_le hbound))
      (fun k hk hlt => (hp k hk (by omega)).trans (by
        have hne : k ≠ t := by omega
        simp [hne])) hm
    have hon : (renumbering p bound).on tail = tail := htail.on_eq fun k hk hlt =>
      renumbering_of_not (by omega) (hnot k hk hlt)
    rw [relist, bind_of_ok hrun, Run.newImproper_eq, Renaming.on_improper, Renaming.on_fresh,
      renumbering_of hbound hpt, hon, Machine.skip_skip, Nat.count_succ, if_pos hpt,
      count_eq_of_not hle' hnot, ← hm]
    rfl
  | .real _ _, _, _, hv, _, hbound, hp, _, _ | .str _ _, _, _, hv, _, hbound, hp, _, _
  | .bool _, _, _, hv, _, hbound, hp, _, _ | .int _, _, _, hv, _, hbound, hp, _, _
  | .char _, _, _, hv, _, hbound, hp, _, _ | .sym _, _, _, hv, _, hbound, hp, _, _ =>
    relist_of_not hv hbound (fun k hk hlt hpk => List.not_mem_nil ((hp k hk hlt).mp hpk)) rfl

theorem relistIn_numbered : ∀ {vs : List Value} {lo hi : Nat}, NumberedAll lo vs hi →
    allKeepKinds vs = true → hi ≤ bound →
    (∀ t, lo ≤ t → t < hi → (p t ↔ .fresh t ∈ rebuiltIn vs)) →
    ∀ {m : Machine}, m.nextTag = bound → relistIn vs (m.skip (Nat.count p lo)) =
      .ok ((renumbering p bound).on vs) (m.skip (Nat.count p hi))
  | [], _, _, hvs, _, _, _, _, _ => by
    cases hvs
    rfl
  | v :: rest, lo, hi, ⟨mid, hv, hrest⟩, hkeeps, hbound, hp, m, hm => by
    obtain ⟨hkeep, hkeeps⟩ := Bool.and_eq_true_iff.mp hkeeps
    have hle := hv.le
    have hle' := hrest.le
    have hhere : ∀ t, lo ≤ t → t < mid → (p t ↔ .fresh t ∈ rebuilt v) := fun t ht hlt => by
      refine (hp t ht (by omega)).trans (List.mem_append.trans (or_iff_left fun hin => ?_))
      have hbounds := hrest.bounds hin
      omega
    have hthere : ∀ t, mid ≤ t → t < hi → (p t ↔ .fresh t ∈ rebuiltIn rest) := fun t ht hlt => by
      refine (hp t (by omega) hlt).trans (List.mem_append.trans (or_iff_right fun hin => ?_))
      have hbounds := hv.bounds hin
      omega
    rw [relistIn, bind_of_ok (relist_numbered hv hkeep (by omega) hhere hm),
      bind_of_ok (relistIn_numbered hrest hkeeps hbound hthere hm)]
    rfl

end

theorem fixes_renumbering {m : Machine} (hle : m.nextTag ≤ bound)
    (hnot : ∀ t, t < m.nextTag → ¬ p t) : (renumbering p bound).Fixes m :=
  ⟨fun t ht => renumbering_of_not (Nat.lt_of_lt_of_le ht hle) (hnot t ht), fun _ _ => rfl⟩

/-- Where a closed machine has given out numbers up to the bound, it has room for those that are
given out again. -/
theorem related_renumbering {m : Machine} (hm : m.IsClosed) (hle : m.nextTag ≤ bound)
    (hnot : ∀ t, t < m.nextTag → ¬ p t) (tagLimit placeLimit : Nat) :
    Comparison.Related ⟨renumbering p bound, tagLimit, placeLimit⟩ { m with nextTag := bound }
      (Machine.skip { m with nextTag := bound } (Nat.count p bound)) :=
  have hfixes : (renumbering p bound).Fixes m := fixes_renumbering hle hnot
  have hstart : Comparison.Related ⟨renumbering p bound, 0, 0⟩ m
      (Machine.skip { m with nextTag := bound } (Nat.count p bound)) :=
    hm.related hfixes rfl (fun _ => rfl) (fun _ h => absurd h (Nat.not_lt_zero _))
      fun _ h => absurd h (Nat.not_lt_zero _)
  { hstart with
    tags := fun t _ => by
      change (if bound + t < bound then _ else bound + t + Nat.count p bound) = _
      rw [if_neg (by omega), Nat.add_right_comm]
      rfl
    places := fun _ _ => rfl }

end Renumbering

/-- A form just read and what is made of it when it is rebuilt evaluate alike. -/
theorem alike_of_relist {m₀ m n : Machine} {d : Datum} {form r : Value} (hclosed : m₀.IsClosed)
    (hread : Run.ofDatum d m₀ = .ok form m) (hkeeps : keepsKinds form = true)
    (hrelist : relist form m = .ok r n) (s : Scope) (allowance : Nat) :
    (Ending.ofResult ((Engine.ofAllowance allowance).eval form s m)).Alike m₀
      (Ending.ofResult ((Engine.ofAllowance allowance).eval r s n)) := by
  let p (t : Nat) : Prop := .fresh t ∈ rebuilt form
  obtain ⟨hform, hm⟩ := numbered_ofDatum hread
  obtain ⟨bound, rfl⟩ : ∃ bound, m = { m₀ with nextTag := bound } := ⟨_, hm⟩
  -- what the machine has given out before the form was read is no part of it
  have hnot : ∀ t, t < m₀.nextTag → ¬ p t := fun t ht hpt =>
    Nat.not_le_of_lt ht (hform.bounds hpt).1
  have hrun := relist_numbered (p := p) (m := { m₀ with nextTag := bound }) hform hkeeps
    (Nat.le_refl bound) (fun _ _ _ => Iff.rfl) rfl
  rw [Nat.count_iff_forall_not.mpr hnot, Machine.skip_zero, hrelist] at hrun
  cases hrun
  let k := ((Engine.ofAllowance allowance).eval form s).after { m₀ with nextTag := bound }
  let ρ : Comparison := ⟨renumbering p bound, k.nextTag, k.closures.size⟩
  have hfollows : ρ.Follows false ((Engine.ofAllowance allowance).eval form s)
      ((Engine.ofAllowance allowance).eval (ρ.on form) s) :=
    (Engine.follows_self allowance).eval form s
  have hmatches := hfollows.run (related_renumbering hclosed hform.le hnot _ _)
    ⟨Nat.le_refl _, Nat.le_refl _⟩
  exact (Ending.of_matches (fixes_renumbering hform.le hnot) hmatches).1

end Expansion

namespace Engine

open Expansion

/-- Full expansion of a form in which it meets no expander gives the same data, but with lists in
the places of the vectors it goes through. Where there is no such vector, a form just read and its
expansion evaluate alike. -/
theorem expand_of_settled {g : Engine} {s : Scope} {m : Machine} {form : Value}
    (hheads : AllHeads (m.Settles s) form) (hdepth : depth form < g.allowance) :
    ∃ r count, g.expand form s true m = .ok r (m.skip count) ∧ r.bare = listed form ∧
      (r.bare = form.bare ↔ keepsKinds form = true) ∧
      ∀ (m₀ : Machine) (d : Datum), m₀.IsClosed → Run.ofDatum d m₀ = .ok form m →
        keepsKinds form = true → ∀ allowance,
          (Ending.ofResult ((ofAllowance allowance).eval form s m)).Alike m₀
            (Ending.ofResult ((ofAllowance allowance).eval r s (m.skip count))) := by
  obtain ⟨r, count, hrelist, hbare⟩ := relist_ok form m
  have hexpand : g.expand form s true m = relist form m := expandAll_eq_relist hdepth hheads 0
  refine ⟨r, count, hexpand.trans hrelist, hbare, ?_, fun m₀ d hclosed hread hkeeps allowance =>
    alike_of_relist hclosed hread hkeeps hrelist s allowance⟩
  rw [hbare]
  exact listed_eq_bare_iff form

/-- The form `(list '#(1 2) 3)`. -/
def quotedVector : Datum :=
  .list [.sym "list", .list [.sym "quote", .vector [.int 1, .int 2]], .int 3]

/-- Nothing is expanded in it, and the vector that it quotes stays. -/
theorem expand_of_settled_quotedVector :
    ∃ form m r count, Run.ofDatum quotedVector (.initial "2.10" true .empty) = .ok form m ∧
      AllHeads (m.Settles (.ofModule Machine.defaultId)) form ∧ keepsKinds form = true ∧
      (ofAllowance 10).expand form (.ofModule Machine.defaultId) true m = .ok r (m.skip count) ∧
      r.bare = form.bare ∧ ∀ allowance,
        (Ending.ofResult ((ofAllowance allowance).eval form (.ofModule Machine.defaultId) m)).Alike
          (.initial "2.10" true .empty)
          (Ending.ofResult ((ofAllowance allowance).eval r (.ofModule Machine.defaultId)
            (m.skip count))) := by
  let m := Machine.skip (.initial "2.10" true .empty) 3
  let quoted : Value := .list (.fresh 1) [.sym "quote", .vector (.fresh 0) [.int 1, .int 2]]
  let form : Value := .list (.fresh 2) [.sym "list", quoted, .int 3]
  have hread : Run.ofDatum quotedVector (.initial "2.10" true .empty) = .ok form m := rfl
  have hlist : m.Settles (.ofModule Machine.defaultId) (.sym "list") := ⟨none, rfl, nofun⟩
  have hquote : m.Settles (.ofModule Machine.defaultId) (.sym "quote") :=
    ⟨some (.form .quote), rfl, nofun⟩
  have hquoted : AllHeads (m.Settles (.ofModule Machine.defaultId)) quoted :=
    ⟨fun _ h => by cases h; exact hquote, fun h => absurd h Bool.false_ne_true⟩
  have hheads : AllHeads (m.Settles (.ofModule Machine.defaultId)) form :=
    ⟨fun _ h => by cases h; exact hlist, fun _ => ⟨trivial, hquoted, trivial, trivial⟩⟩
  obtain ⟨r, count, hexpand, -, hbare, halike⟩ :=
    expand_of_settled (g := ofAllowance 10) hheads (by decide)
  exact ⟨form, m, r, count, hread, hheads, rfl, hexpand, hbare.mpr rfl,
    halike _ _ (Machine.isClosed_initial _ _ _) hread rfl⟩

end Engine

end LiveScheme
