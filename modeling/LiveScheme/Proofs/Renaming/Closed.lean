import LiveScheme.Proofs.Machine.Registry
import LiveScheme.Proofs.Renaming.Evaluation

/-!
# What a machine has given out

A machine is closed when all that it holds mentions only identities and closures that the machine
itself has given out. New machines are closed, and whatever is evaluated, loaded or requested keeps
them closed. What a closed machine gives out next is of no account: an evaluation goes the same way
when some numbers and places are left out.
-/

namespace LiveScheme

namespace Renaming

/-- What the machine has given out keeps its number or its place. -/
structure Fixes (ρ : Renaming) (m : Machine) : Prop where
  tags : ∀ n, n < m.nextTag → ρ.tag n = n
  places : ∀ id, id < m.closures.size → ρ.place id = id

theorem Fixes.mono {ρ : Renaming} {m n : Machine} (h : ρ.Fixes n) (hn : n.Outgrows m) :
    ρ.Fixes m :=
  ⟨fun k hk => h.tags k (Nat.lt_of_lt_of_le hk hn.tags),
    fun id hid => h.places id (Nat.lt_of_lt_of_le hid hn.places)⟩

theorem fixes_identity (m : Machine) : identity.Fixes m := ⟨fun _ _ => rfl, fun _ _ => rfl⟩

/-- Leaves out some numbers and some places. -/
def leavingOut (tag tags place places : Nat) : Renaming where
  tag n := if n < tag then n else n + tags
  place id := if id < place then id else id + places
  tag_injective a b h := by
    dsimp only at h
    split at h <;> split at h <;> omega
  place_injective a b h := by
    dsimp only at h
    split at h <;> split at h <;> omega

theorem fixes_leavingOut (m : Machine) (tags places : Nat) :
    (leavingOut m.nextTag tags m.closures.size places).Fixes m :=
  ⟨fun _ hn => if_pos hn, fun _ hid => if_pos hid⟩

end Renaming

namespace Machine

variable {α : Type} [Renames α] {m n : Machine}

/-- The thing mentions only identities and closures that the machine has given out: it stays as it
is when others are renamed. -/
def Knows (m : Machine) (a : α) : Prop := ∀ ρ : Renaming, ρ.Fixes m → ρ.on a = a

structure IsClosed (m : Machine) : Prop where
  modules : ∀ id : Nat, m.Knows m.modules[id]?
  frames : ∀ id : Nat, m.Knows m.frames[id]?
  closures : ∀ id : Nat, m.Knows m.closures[id]?

namespace IsClosed

/-- A closed machine is related to one that has given out more. -/
theorem related {m' : Machine} {ρ : Comparison} (hm : m.IsClosed) (hρ : ρ.Fixes m)
    (hsame : m' = { m with nextTag := m'.nextTag, closures := m'.closures })
    (hclosures : ∀ id, m'.closures[ρ.place id]? = m.closures[id]?)
    (htags : ∀ k, m.nextTag + k < ρ.tagLimit → ρ.tag (m.nextTag + k) = m'.nextTag + k)
    (hplaces : ∀ k, m.closures.size + k < ρ.placeLimit →
      ρ.place (m.closures.size + k) = m'.closures.size + k) : ρ.Related m m' where
  version := by rw [hsame]
  keywordsAreValues := by rw [hsame]
  modules := by
    rw [hsame]
    exact Array.ext_getElem? fun id => (hm.modules id _ hρ).symm.trans Array.getElem?_map.symm
  frames := by
    rw [hsame]
    exact Array.ext_getElem? fun id => (hm.frames id _ hρ).symm.trans Array.getElem?_map.symm
  closures id := (hclosures id).trans (hm.closures id _ hρ).symm
  connections := by rw [hsame]
  current := by rw [hsame]
  console := by rw [hsame]
  disk := by rw [hsame]
  tags := htags
  places := hplaces

/-- Leaving out some numbers and some places makes room for them in a closed machine. -/
theorem related_leavingOut (hm : m.IsClosed) (tags : Nat) (more : Array Closure)
    (tagLimit placeLimit : Nat) :
    Comparison.Related
      ⟨Renaming.leavingOut m.nextTag tags m.closures.size more.size, tagLimit, placeLimit⟩ m
      { m with nextTag := m.nextTag + tags, closures := m.closures ++ more } := by
  refine hm.related (Renaming.fixes_leavingOut m tags more.size) rfl (fun id => ?_) (fun k _ => ?_)
    fun k _ => ?_
  · by_cases hid : id < m.closures.size
    · simp [Renaming.leavingOut, hid, Array.getElem?_append]
    · simp [Renaming.leavingOut, hid]
  · simp only [Renaming.leavingOut]
    rw [if_neg (by omega)]
    omega
  · simp only [Renaming.leavingOut, Array.size_append]
    rw [if_neg (by omega)]
    omega

/-- A run on a closed machine is compared with one on a machine that has given out some numbers and
some places already; the renaming is to hold as far as the run gets. -/
theorem exists_matches (hm : m.IsClosed) (tags : Nat) (more : Array Closure) {x : Run α}
    {r' : EStateM.Result Stop Machine α}
    (h : ∀ ρ : Comparison, ρ.Fixes m →
      ρ.Related m { m with nextTag := m.nextTag + tags, closures := m.closures ++ more } →
      ρ.Admits (x.after m) → ρ.Matches false (x m) r') :
    ∃ ρ : Comparison, ρ.Fixes m ∧ ρ.Matches false (x m) r' :=
  ⟨_, Renaming.fixes_leavingOut m tags more.size,
    h ⟨_, (x.after m).nextTag, (x.after m).closures.size⟩ (Renaming.fixes_leavingOut m _ _)
      (hm.related_leavingOut tags more _ _) ⟨Nat.le_refl _, Nat.le_refl _⟩⟩

/-- A closed machine is related to itself, as far as the renaming changes nothing. -/
theorem related_self {ρ : Comparison} (hm : m.IsClosed) (hρ : ρ.Fixes m)
    (htags : ∀ k, k < ρ.tagLimit → ρ.tag k = k)
    (hplaces : ∀ k, k < ρ.placeLimit → ρ.place k = k) : ρ.Related m m := by
  refine hm.related hρ rfl (fun id => ?_) (fun k hk => htags _ hk) fun k hk => hplaces _ hk
  by_cases hid : id < m.closures.size
  · rw [hρ.places id hid]
  · have hplace : ¬ ρ.place id < m.closures.size := fun hlt =>
      hid (ρ.place_injective (hρ.places _ hlt) ▸ hlt)
    rw [Array.getElem?_eq_none (Nat.le_of_not_lt hplace),
      Array.getElem?_eq_none (Nat.le_of_not_lt hid)]

/-- A run that follows itself however what is still to come may be renamed keeps the machine closed
and answers what the machine knows. -/
theorem run (hm : m.IsClosed) {x : Run α}
    (hx : ∀ ρ : Comparison, ρ.Fixes m → ρ.Keeps false x) :
    (x.after m).IsClosed ∧ ∀ a n, x m = .ok a n → n.Knows a := by
  have hout : (x.after m).Outgrows m :=
    ((hx ⟨.identity, 0, 0⟩ (Renaming.fixes_identity m)).moves m).outgrows
  -- a renaming that fixes all that the run leaves changes nothing on the way
  have hmatches : ∀ ρ : Renaming, ρ.Fixes (x.after m) →
      Comparison.Matches ⟨ρ, (x.after m).nextTag, (x.after m).closures.size⟩ false (x m) (x m) :=
    fun ρ hρ => (hx _ (hρ.mono hout)).run
      (hm.related_self (hρ.mono hout) hρ.tags hρ.places) ⟨Nat.le_refl _, Nat.le_refl _⟩
  have hclosed : ∀ {n : Machine}, (∀ ρ : Renaming, ρ.Fixes n →
      Comparison.Related ⟨ρ, n.nextTag, n.closures.size⟩ n n) → n.IsClosed := by
    intro n hrelated
    refine ⟨fun id ρ hρ => ?_, fun id ρ hρ => ?_, fun id ρ hρ => ?_⟩
    · have hmodules := congrArg (fun a : Array Module => a[id]?) (hrelated ρ hρ).modules
      exact (hmodules.trans Array.getElem?_map).symm
    · have hframes := congrArg (fun a : Array (Table Value) => a[id]?) (hrelated ρ hρ).frames
      exact (hframes.trans Array.getElem?_map).symm
    · have hget := (hrelated ρ hρ).closures id
      by_cases hid : id < n.closures.size
      · rw [hρ.places id hid] at hget
        exact hget.symm
      · rw [Array.getElem?_eq_none (Nat.le_of_not_lt hid)]
        rfl
  cases hrun : x m with
  | ok a n =>
    rw [Run.after_of_ok hrun, hrun] at hmatches
    rw [Run.after_of_ok hrun]
    refine ⟨hclosed fun ρ hρ => ?_, fun b k hb ρ hρ => ?_⟩
    · obtain ⟨n', heq, hn⟩ := (hmatches ρ hρ).exists_ok
      obtain ⟨-, rfl⟩ := EStateM.Result.ok.inj heq
      exact hn
    · cases hb
      obtain ⟨n', heq, -⟩ := (hmatches ρ hρ).exists_ok
      exact (EStateM.Result.ok.inj heq).1.symm
  | error stop n =>
    rw [Run.after_of_error hrun, hrun] at hmatches
    rw [Run.after_of_error hrun]
    refine ⟨hclosed fun ρ hρ => ?_, fun _ _ hb => by cases hb⟩
    obtain ⟨hlax, -⟩ | ⟨n', heq, hn⟩ := (hmatches ρ hρ).exists_error
    · cases hlax
    · cases heq
      exact hn

end IsClosed

theorem knows_base (keywordsAreValues : Bool) : m.Knows (baseModule keywordsAreValues) :=
  fun ρ _ => by cases keywordsAreValues <;> rfl

theorem isClosed_initial (version : String) (keywordsAreValues : Bool) (disk : Disk) :
    (initial version keywordsAreValues disk).IsClosed := by
  refine ⟨fun id => ?_, fun id ρ _ => rfl, fun id ρ _ => rfl⟩
  match id with
  | 0 => exact fun ρ hρ => congrArg some (knows_base keywordsAreValues ρ hρ)
  | 1 => exact fun ρ hρ => rfl
  | id + 2 => exact fun ρ hρ => rfl

/-- Whatever was evaluated, loaded or requested, and however it ended, the machine is closed. -/
theorem Reachable.isClosed (h : m.Reachable) : m.IsClosed := by
  induction h with
  | fresh h =>
    obtain ⟨keywordsAreValues, rfl⟩ := fresh_eq_ok h
    exact isClosed_initial _ _ _
  | evaluate allowance home forms _ ih =>
    exact (ih.run fun ρ _ => (Engine.follows_self allowance).evalData home .void forms).1
  | load allowance path home _ ih =>
    exact (ih.run fun ρ _ => (Engine.follows_self allowance).load path home).1
  | connect loadPath logFile _ ih =>
    exact (ih.run fun ρ _ => .bind (Comparison.keeps_openConnection loadPath logFile) fun id =>
      Comparison.keeps_bindServices id _).1
  | request allowance connection service args _ ih =>
    exact (ih.run fun ρ _ => .bind (Comparison.keeps_ofData args) fun args =>
      Service.follows_call (Engine.follows_self allowance) connection args service).1

end Machine

end LiveScheme
