import LiveScheme.Proofs.Machine.Brackets
import LiveScheme.Proofs.Machine.Search
import LiveScheme.Proofs.Value.Bare

/-!
# Where expansion descends

Full expansion goes through the elements of a list or a vector, unless it begins with the symbol of
a quotation or a quasiquotation, and through the items of a dotted list in front of its tail. Where
it meets no expander it makes these parts anew, every list and every vector as a list, and leaves
all others alone.
-/

namespace LiveScheme

open Node

/-- The head is looked up, and it is no expander. -/
def Machine.Settles (m : Machine) (s : Scope) (head : Value) : Prop :=
  ∃ k, Run.keyword? head s m = .ok k m ∧ ∀ tag name id, k ≠ some (.expander tag name id)

namespace Expansion

/-- Expansion descends into the elements. -/
def isOpen : List Value → Bool
  | [] => false
  | head :: _ => !Engine.isTemplate head

mutual

/-- Every list and every vector that expansion comes to begins with such a head. -/
def AllHeads (P : Value → Prop) : Value → Prop
  | .list _ items | .vector _ items =>
    (∀ head ∈ items.head?, P head) ∧ (isOpen items = true → AllHeadsIn P items)
  | .improper _ items _ => AllHeadsIn P items
  | _ => True

def AllHeadsIn (P : Value → Prop) : List Value → Prop
  | [] => True
  | v :: rest => AllHeads P v ∧ AllHeadsIn P rest

end

mutual

/-- How deep expansion descends. -/
def depth : Value → Nat
  | .list _ items | .vector _ items => if isOpen items then depthIn items else 0
  | .improper _ items _ => depthIn items
  | _ => 0

def depthIn : List Value → Nat
  | [] => 0
  | v :: rest => max (depth v + 1) (depthIn rest)

end

mutual

/-- Makes the parts anew through which expansion goes. -/
def relist : Value → Run Value
  | .list tag items =>
    if isOpen items then do Run.newList (← relistIn items) else return .list tag items
  | .vector tag items =>
    if isOpen items then do Run.newList (← relistIn items) else return .vector tag items
  | .improper _ items tail => do Run.newImproper (← relistIn items) tail
  | v => return v

def relistIn : List Value → Run (List Value)
  | [] => return []
  | v :: rest => do
    let w ← relist v
    return w :: (← relistIn rest)

end

mutual

/-- The form with lists in the places of the vectors through which expansion goes. -/
def listed : Value → Tree
  | .list _ items => if isOpen items then .list () (listedIn items) else .list () (items.map bare)
  | .vector _ items =>
    if isOpen items then .list () (listedIn items) else .vector () (items.map bare)
  | .improper _ items tail => .improper () (listedIn items) tail.bare
  | v => v.bare

def listedIn : List Value → List Tree
  | [] => []
  | v :: rest => listed v :: listedIn rest

end

mutual

/-- Expansion goes through no vector. -/
def keepsKinds : Value → Bool
  | .list _ items => !isOpen items || allKeepKinds items
  | .vector _ items => !isOpen items
  | .improper _ items _ => allKeepKinds items
  | _ => true

def allKeepKinds : List Value → Bool
  | [] => true
  | v :: rest => keepsKinds v && allKeepKinds rest

end

theorem allHeadsIn_iff {P : Value → Prop} {vs : List Value} :
    AllHeadsIn P vs ↔ ∀ v ∈ vs, AllHeads P v := by
  induction vs with
  | nil => exact iff_of_true trivial nofun
  | cons v rest ih => rw [AllHeadsIn, ih, List.forall_mem_cons]

theorem depthIn_le_iff {vs : List Value} {bound : Nat} :
    depthIn vs ≤ bound ↔ ∀ v ∈ vs, depth v < bound := by
  induction vs with
  | nil => exact iff_of_true (Nat.zero_le _) nofun
  | cons v rest ih => rw [depthIn, Nat.max_le, Nat.succ_le_iff, ih, List.forall_mem_cons]

theorem allKeepKinds_iff {vs : List Value} :
    allKeepKinds vs = true ↔ ∀ v ∈ vs, keepsKinds v = true := by
  induction vs with
  | nil => exact iff_of_true rfl nofun
  | cons v rest ih => rw [allKeepKinds, Bool.and_eq_true, ih, List.forall_mem_cons]

mutual

theorem listed_eq_bare_iff : ∀ v : Value, listed v = v.bare ↔ keepsKinds v = true
  | .list _ items => by
    rw [listed, keepsKinds, bare_list]
    cases isOpen items with
    | false => exact iff_of_true rfl rfl
    | true =>
      rw [if_pos rfl, Node.list.injEq, listedIn_eq_bare_iff items]
      exact and_iff_right rfl
  | .vector _ items => by
    rw [listed, keepsKinds, bare_vector]
    cases isOpen items with
    | false => exact iff_of_true rfl rfl
    | true => exact iff_of_false nofun nofun
  | .improper _ items tail => by
    rw [listed, keepsKinds, bare_improper, Node.improper.injEq, listedIn_eq_bare_iff items]
    exact ⟨fun h => h.2.1, fun h => ⟨rfl, h, rfl⟩⟩
  | .bool _ | .int _ | .real _ _ | .str _ _ | .char _ | .sym _ | .object _ _ => by
    unfold listed keepsKinds
    exact iff_of_true rfl rfl

theorem listedIn_eq_bare_iff : ∀ vs : List Value,
    listedIn vs = vs.map bare ↔ allKeepKinds vs = true
  | [] => iff_of_true rfl rfl
  | v :: rest => by
    rw [listedIn, List.map_cons, List.cons.injEq, listed_eq_bare_iff v, listedIn_eq_bare_iff rest,
      allKeepKinds, Bool.and_eq_true]

end

mutual

theorem relist_ok : ∀ (v : Value) (m : Machine),
    ∃ r count, relist v m = .ok r (m.skip count) ∧ r.bare = listed v
  | .list tag items, m => by
    rw [relist, listed]
    split
    · obtain ⟨rs, count, hrun, hbare⟩ := relistIn_ok items m
      rw [bind_of_ok hrun, Run.newList_eq, Machine.skip_skip]
      exact ⟨_, _, rfl, by rw [bare_list, hbare]⟩
    · exact ⟨_, 0, rfl, bare_list tag items⟩
  | .vector tag items, m => by
    rw [relist, listed]
    split
    · obtain ⟨rs, count, hrun, hbare⟩ := relistIn_ok items m
      rw [bind_of_ok hrun, Run.newList_eq, Machine.skip_skip]
      exact ⟨_, _, rfl, by rw [bare_list, hbare]⟩
    · exact ⟨_, 0, rfl, bare_vector tag items⟩
  | .improper _ items tail, m => by
    obtain ⟨rs, count, hrun, hbare⟩ := relistIn_ok items m
    rw [relist, listed, bind_of_ok hrun, Run.newImproper_eq, Machine.skip_skip]
    exact ⟨_, _, rfl, by rw [bare_improper, hbare]⟩
  | .bool _, _ | .int _, _ | .real _ _, _ | .str _ _, _ | .char _, _ | .sym _, _
  | .object _ _, _ => by
    unfold relist listed
    exact ⟨_, 0, rfl, rfl⟩

theorem relistIn_ok : ∀ (vs : List Value) (m : Machine),
    ∃ rs count, relistIn vs m = .ok rs (m.skip count) ∧ rs.map bare = listedIn vs
  | [], m => ⟨[], 0, rfl, rfl⟩
  | v :: rest, m => by
    obtain ⟨r, count, hrun, hbare⟩ := relist_ok v m
    obtain ⟨rs, more, hruns, hbares⟩ := relistIn_ok rest (m.skip count)
    rw [relistIn, bind_of_ok hrun, bind_of_ok hruns, Machine.skip_skip]
    exact ⟨r :: rs, _, rfl, by rw [List.map_cons, hbare, hbares, listedIn]⟩

end

end Expansion

namespace Engine

open Expansion

/-- Goes through the parts of a form. -/
def descend (f : Value → Run Value) : Value → Run Value
  | .list tag items =>
    if isOpen items then do Run.newList (← mapInOrder f items) else return .list tag items
  | .vector tag items =>
    if isOpen items then do Run.newList (← mapInOrder f items) else return .vector tag items
  | .improper _ items tail => do Run.newImproper (← mapInOrder f items) tail
  | v => return v

variable {g : Engine} {s : Scope} {m n : Machine}

theorem expandAll_of_some {form next : Value} (h : g.expandHead? form s m = .ok (some next) n)
    (fuel : Nat) : g.expandAll (fuel + 1) form s m = g.expandAll fuel next s n := by
  conv => lhs; unfold expandAll
  rw [bind_of_ok h]

theorem expandAll_of_none {form : Value} (h : g.expandHead? form s m = .ok none n) (fuel : Nat) :
    g.expandAll (fuel + 1) form s m = descend (fun x => g.expandAll fuel x s) form n := by
  conv => lhs; unfold expandAll
  rw [bind_of_ok h]
  cases form with
  | list tag items | vector tag items =>
    cases items with
    | nil => rfl
    | cons head rest =>
      change (if isTemplate head then pure _ else _ : Run Value) n =
        (if !isTemplate head then _ else pure _ : Run Value) n
      by_cases htemplate : isTemplate head = true
      · rw [if_pos htemplate, if_neg (by simp [htemplate])]
      · rw [if_neg htemplate, if_pos (by simp [htemplate])]
  | _ => rfl

/-- One step of expansion finds a head that settles, or applies an expander. -/
theorem expandHead?_cases {form : Value} {next : Option Value}
    (h : g.expandHead? form s m = .ok next n) :
    (next = none ∧ n = m ∧
      ∀ items, form.elements? = some items → ∀ head ∈ items.head?, m.Settles s head) ∨
    ∃ head args tag name id v, next = some v ∧
      Run.keyword? head s m = .ok (some (.expander tag name id)) m ∧
      g.apply (.closure id) args m = .ok v n := by
  unfold expandHead? at h
  cases hitems : form.elements? with
  | none =>
    rw [hitems] at h
    cases h
    exact .inl ⟨rfl, rfl, nofun⟩
  | some items =>
    rw [hitems] at h
    cases items with
    | nil =>
      cases h
      exact .inl ⟨rfl, rfl, fun _ hsome _ hhead => by cases hsome; cases hhead⟩
    | cons head args =>
      dsimp only at h
      obtain ⟨k, m', hkeyword, h⟩ := exists_of_bind_ok h
      have hpreserves : Preserves id (Run.keyword? head s) := Run.preserves_keyword? head s
      obtain rfl : m' = m := hpreserves.of_ok hkeyword
      rcases k with _ | ⟨_ | ⟨tag, name, id⟩⟩
      · cases h
        exact .inl ⟨rfl, rfl, fun _ hsome _ hhead => by
          cases hsome; cases hhead; exact ⟨_, hkeyword, nofun⟩⟩
      · cases h
        exact .inl ⟨rfl, rfl, fun _ hsome _ hhead => by
          cases hsome; cases hhead; exact ⟨_, hkeyword, nofun⟩⟩
      · obtain ⟨v, k, happly, h⟩ := exists_of_bind_ok h
        cases h
        exact .inr ⟨head, args, tag, name, id, v, rfl, hkeyword, happly⟩

/-- Full expansion goes on with what an expander makes, or goes through the parts. -/
theorem expandAll_cases {form r : Value} {fuel : Nat}
    (h : g.expandAll (fuel + 1) form s m = .ok r n) :
    (∃ head args tag name id next k, g.expandHead? form s m = .ok (some next) k ∧
      Run.keyword? head s m = .ok (some (.expander tag name id)) m ∧
      g.apply (.closure id) args m = .ok next k ∧ g.expandAll fuel next s k = .ok r n) ∨
    (∀ items, form.elements? = some items → ∀ head ∈ items.head?, m.Settles s head) ∧
      descend (fun x => g.expandAll fuel x s) form m = .ok r n := by
  cases hhead : g.expandHead? form s m with
  | error stop k =>
    unfold expandAll at h
    rw [bind_of_error hhead] at h
    cases h
  | ok next k =>
    obtain ⟨rfl, rfl, hsettles⟩ | ⟨head, args, tag, name, id, v, rfl, hkeyword, happly⟩ :=
      expandHead?_cases hhead
    · rw [expandAll_of_none hhead] at h
      exact .inr ⟨hsettles, h⟩
    · rw [expandAll_of_some hhead] at h
      exact .inl ⟨head, args, tag, name, id, v, k, rfl, hkeyword, happly, h⟩

/-- Where the head settles nothing is expanded. -/
theorem expandHead?_of_settles {form : Value}
    (h : ∀ items, form.elements? = some items → ∀ head ∈ items.head?, m.Settles s head) :
    g.expandHead? form s m = .ok none m := by
  unfold expandHead?
  cases hitems : form.elements? with
  | none => rfl
  | some items =>
    cases items with
    | nil => rfl
    | cons head args =>
      obtain ⟨k, hk, hno⟩ := h _ hitems head rfl
      dsimp only
      rw [bind_of_ok hk]
      rcases k with _ | ⟨_ | ⟨tag, name, id⟩⟩
      · rfl
      · rfl
      · exact absurd rfl (hno tag name id)

end Engine

namespace Machine

theorem settles_skip {m : Machine} {s : Scope} {head : Value} (h : m.Settles s head)
    (count : Nat) : (m.skip count).Settles s head := by
  obtain ⟨k, hk, hno⟩ := h
  have hmodules : (m.skip count).modules = m.modules := rfl
  have hframes : ∀ id ∈ s.frames, (m.skip count).frame id = m.frame id := fun _ _ => rfl
  exact ⟨k, Run.keyword?_congr hmodules rfl hframes hk, hno⟩

end Machine

namespace Expansion

variable {g : Engine} {s : Scope} {m : Machine}

theorem mapInOrder_eq_relistIn {f : Value → Run Value} {vs : List Value}
    (h : ∀ v ∈ vs, ∀ count, f v (m.skip count) = relist v (m.skip count)) (count : Nat) :
    Engine.mapInOrder f vs (m.skip count) = relistIn vs (m.skip count) := by
  induction vs generalizing count with
  | nil => rfl
  | cons v rest ih =>
    obtain ⟨hv, hrest⟩ := List.forall_mem_cons.mp h
    obtain ⟨r, more, hrun, -⟩ := relist_ok v (m.skip count)
    rw [Engine.mapInOrder, relistIn, bind_of_ok hrun, bind_of_ok ((hv count).trans hrun),
      Machine.skip_skip]
    simp only [bind, EStateM.bind, ih hrest]

/-- A form without expanders is made anew. -/
theorem expandAll_eq_relist {fuel : Nat} {form : Value} (hdepth : depth form < fuel)
    (hheads : AllHeads (m.Settles s) form) (count : Nat) :
    g.expandAll fuel form s (m.skip count) = relist form (m.skip count) := by
  induction fuel generalizing form count with
  | zero => exact absurd hdepth (Nat.not_lt_zero _)
  | succ fuel ih =>
    have hitems : ∀ {items : List Value}, depthIn items < fuel + 1 →
        AllHeadsIn (m.Settles s) items → ∀ count,
        Engine.mapInOrder (fun x => g.expandAll fuel x s) items (m.skip count) =
          relistIn items (m.skip count) := fun hfuel hall =>
      mapInOrder_eq_relistIn fun v hv => ih (depthIn_le_iff.mp (Nat.le_of_lt_succ hfuel) v hv)
        (allHeadsIn_iff.mp hall v hv)
    have hnone : g.expandHead? form s (m.skip count) = .ok none (m.skip count) := by
      refine Engine.expandHead?_of_settles fun items helements head hhead => ?_
      cases form with
      | list _ items' | vector _ items' =>
        cases helements
        exact Machine.settles_skip (hheads.1 head hhead) count
      | _ => cases helements
    rw [Engine.expandAll_of_none hnone]
    cases form with
    | list _ items | vector _ items =>
      rw [Engine.descend, relist]
      cases hopen : isOpen items with
      | false => rfl
      | true =>
        rw [depth, if_pos hopen] at hdepth
        rw [if_pos rfl, if_pos rfl]
        simp only [bind, EStateM.bind, hitems hdepth (hheads.2 hopen)]
    | improper _ items tail =>
      rw [depth] at hdepth
      rw [Engine.descend, relist]
      simp only [bind, EStateM.bind, hitems hdepth hheads]
    | _ => rfl

end Expansion

end LiveScheme
