import LiveScheme.Proofs.Machine.Tame
import LiveScheme.Proofs.Renaming.Machines

/-!
# Runs under a renaming

A program and the same program under a renaming are run on related machines. They end in the same
way: with answers that the renaming relates or with the same error, on machines that are related
again. A comparison may be lax, then nothing is said where the first run gives up, so that the
second one may have a larger allowance.
-/

namespace LiveScheme

/-- The second machine has made whatever the first one has. -/
structure Machine.Outgrows (n m : Machine) : Prop where
  tags : m.nextTag ≤ n.nextTag
  places : m.closures.size ≤ n.closures.size

theorem Machine.Becomes.outgrows {m n : Machine} (h : m.Becomes n) : n.Outgrows m := by
  induction h with
  | trans _ _ ih ih' => exact ⟨Nat.le_trans ih.tags ih'.tags, Nat.le_trans ih.places ih'.places⟩
  | within _ _ _ _ ih | capturing _ _ _ ih => exact ⟨ih.tags, ih.places⟩
  | newTag m => exact ⟨Nat.le_succ _, Nat.le_refl _⟩
  | newClosure m c => exact ⟨Nat.le_refl _, by simp⟩
  | nameClosure m id name => exact ⟨Nat.le_refl _, by simp⟩
  | _ => exact ⟨Nat.le_refl _, Nat.le_refl _⟩

namespace Comparison

open Renaming

variable {α β : Type} [Renames α] [Renames β]

theorem Admits.mono {ρ : Comparison} {m n : Machine} (h : ρ.Admits n) (hn : m.Becomes n) :
    ρ.Admits m :=
  ⟨Nat.le_trans hn.outgrows.tags h.tags, Nat.le_trans hn.outgrows.places h.places⟩

/-- How the second run ends when the first one ends in the given way. -/
inductive Matches (ρ : Comparison) (lax : Bool) :
    EStateM.Result Stop Machine α → EStateM.Result Stop Machine α → Prop
  | ok {a : α} {n n' : Machine} : ρ.Related n n' → Matches ρ lax (.ok a n) (.ok (ρ.on a) n')
  | error {stop : Stop} {n n' : Machine} : ρ.Related n n' →
    Matches ρ lax (.error stop n) (.error stop n')
  | endless {n : Machine} {r' : EStateM.Result Stop Machine α} : lax = true →
    Matches ρ lax (.error .endless n) r'

/-- The second run does under the renaming what the first one does. -/
structure Follows (ρ : Comparison) (lax : Bool) (x x' : Run α) : Prop where
  moves : x.Moves
  run : ∀ {m m'}, ρ.Related m m' → ρ.Admits (x.after m) → ρ.Matches lax (x m) (x' m')

/-- A program that does on related machines what it does, under the renaming. -/
abbrev Keeps (ρ : Comparison) (lax : Bool) (x : Run α) : Prop := ρ.Follows lax x x

variable {ρ : Comparison} {lax : Bool}

theorem Matches.exists_ok {a : α} {n : Machine} {r' : EStateM.Result Stop Machine α}
    (h : ρ.Matches lax (.ok a n) r') : ∃ n', r' = .ok (ρ.on a) n' ∧ ρ.Related n n' := by
  cases h with
  | ok hn => exact ⟨_, rfl, hn⟩

theorem Matches.exists_error {stop : Stop} {n : Machine} {r' : EStateM.Result Stop Machine α}
    (h : ρ.Matches lax (.error stop n) r') :
    lax = true ∧ stop = .endless ∨ ∃ n', r' = .error stop n' ∧ ρ.Related n n' := by
  cases h with
  | error hn => exact .inr ⟨_, rfl, hn⟩
  | endless hlax => exact .inl ⟨hlax, rfl⟩

namespace Follows

theorem pure {a a' : α} (h : a' = ρ.on a) : ρ.Follows lax (Pure.pure a) (Pure.pure a') where
  moves := .pure a
  run hm _ := h ▸ .ok hm

theorem throw (stop : Stop) : ρ.Follows lax (throw stop : Run α) (throw stop) where
  moves := .throw stop
  run hm _ := .error hm

/-- A run that gives up says nothing about another one, in a lax comparison. -/
theorem giveUp (hlax : lax = true) (x : Run α) : ρ.Follows lax (MonadExcept.throw .endless) x where
  moves := .throw .endless
  run _ _ := .endless hlax

theorem fail (e : SchemeError) : ρ.Follows lax (Run.fail e : Run α) (Run.fail e) := throw _

theorem faulty (f : Fault) : ρ.Follows lax (Run.faulty f : Run α) (Run.faulty f) := throw _

/-- The rest of a program is compared where its first part has led. -/
theorem run_bind {x x' : Run α} {f f' : α → Run β} (hx : ρ.Follows lax x x')
    (hmoves : ∀ a, (f a).Moves) {m m' : Machine} (hm : ρ.Related m m')
    (hn : ρ.Admits ((x >>= f).after m))
    (hf : ∀ a k k', x m = .ok a k → ρ.Related k k' → ρ.Admits ((f a).after k) →
      ρ.Matches lax (f a k) (f' (ρ.on a) k')) :
    ρ.Matches lax ((x >>= f) m) ((x' >>= f') m') := by
  have hrun := hx.run hm
  cases h : x m with
  | ok a k =>
    rw [Run.after, bind_of_ok h] at hn
    rw [Run.after_of_ok h, h] at hrun
    specialize hrun (hn.mono (hmoves a k))
    rw [bind_of_ok h]
    generalize h' : x' m' = r' at hrun
    cases hrun with
    | ok hk =>
      rw [bind_of_ok h']
      exact hf a k _ h hk hn
  | error stop k =>
    rw [Run.after_of_error (bind_of_error h)] at hn
    rw [Run.after_of_error h, h] at hrun
    specialize hrun hn
    rw [bind_of_error h]
    generalize h' : x' m' = r' at hrun
    cases hrun with
    | error hk =>
      rw [bind_of_error h']
      exact .error hk
    | endless hlax => exact .endless hlax

theorem bind {x x' : Run α} {f f' : α → Run β} (hx : ρ.Follows lax x x')
    (hf : ∀ a, ρ.Follows lax (f a) (f' (ρ.on a))) : ρ.Follows lax (x >>= f) (x' >>= f') where
  moves := hx.moves.bind fun a => (hf a).moves
  run hm hn := hx.run_bind (fun a => (hf a).moves) hm hn fun a _ _ _ hk hn => (hf a).run hk hn

/-- An answer that no renaming changes is handed on as it is. -/
theorem bind_fixed [Fixed α] {x x' : Run α} {f f' : α → Run β} (hx : ρ.Follows lax x x')
    (hf : ∀ a, ρ.Follows lax (f a) (f' a)) : ρ.Follows lax (x >>= f) (x' >>= f') :=
  .bind hx fun a => by rw [on_fixed]; exact hf a

theorem ite {c : Prop} [Decidable c] {x y x' y' : Run α} (hx : ρ.Follows lax x x')
    (hy : ρ.Follows lax y y') : ρ.Follows lax (if c then x else y) (if c then x' else y') := by
  split
  · exact hx
  · exact hy

/-- A check in front of the rest of a program. -/
theorem check {c : Prop} [Decidable c] {y y' : Run Unit} {x x' : Run α}
    (hy : ρ.Follows lax y y') (hx : ρ.Follows lax x x') :
    ρ.Follows lax (if c then y >>= fun _ => x else x) (if c then y' >>= fun _ => x' else x') :=
  .ite (.bind hy fun _ => hx) hx

/-- What the programs read off their machines. -/
theorem get {f f' : Machine → Run α} (hmoves : (MonadState.get >>= f : Run α).Moves)
    (h : ∀ m m', ρ.Related m m' → ρ.Follows lax (f m) (f' m')) :
    ρ.Follows lax (MonadState.get >>= f) (MonadState.get >>= f') where
  moves := hmoves
  run hm hn := (h _ _ hm).run hm hn

/-- What is answered about the machines as they are. -/
theorem reading {f f' : Machine → α} (h : ∀ m m', ρ.Related m m' → f' m' = ρ.on (f m)) :
    ρ.Follows lax (do return f (← MonadState.get)) (do return f' (← MonadState.get)) :=
  .get (Run.Moves.get.bind fun _ => .pure _) fun _ _ hm => .pure (h _ _ hm)

theorem answering {f f' : Machine → α × Machine} (hmoves : ∀ m : Machine, m.Becomes (f m).2)
    (h : ∀ m m', ρ.Related m m' → ρ.Admits (f m).2 →
      (f' m').1 = ρ.on (f m).1 ∧ ρ.Related (f m).2 (f' m').2) :
    ρ.Follows lax (modifyGet f) (modifyGet f') where
  moves := .answering hmoves
  run {m m'} hm hn := by
    obtain ⟨ha, hm'⟩ := h _ _ hm hn
    change ρ.Matches lax (.ok (f m).1 (f m).2) (.ok (f' m').1 (f' m').2)
    rw [ha]
    exact .ok hm'

theorem changing {f f' : Machine → Machine} (hmoves : ∀ m : Machine, m.Becomes (f m))
    (h : ∀ m m', ρ.Related m m' → ρ.Related (f m) (f' m')) :
    ρ.Follows lax (modify f : Run Unit) (modify f') :=
  answering hmoves fun m m' hm _ => ⟨rfl, h m m' hm⟩

/-- Programs that always answer. -/
theorem total {x x' : Run α} (hmoves : x.Moves) (h : ∀ m m', ρ.Related m m' →
    ∃ a n n', x m = .ok a n ∧ x' m' = .ok (ρ.on a) n' ∧ ρ.Related n n') :
    ρ.Follows lax x x' where
  moves := hmoves
  run hm _ := by
    obtain ⟨a, n, n', hn, hn', hrelated⟩ := h _ _ hm
    rw [hn, hn']
    exact .ok hrelated

end Follows

section Operations

open Follows

theorem keeps_ofFault [Fixed α] (r : Except Fault α) : ρ.Keeps lax (Run.ofFault r) := by
  cases r with
  | ok a => exact .pure (on_fixed a).symm
  | error f => exact .faulty f

theorem keeps_ofRead [Fixed α] (r : Except ReadError α) : ρ.Keeps lax (Run.ofRead r) := by
  unfold Run.ofRead
  split
  · exact .pure (on_fixed _).symm
  · exact .faulty _
  · exact .fail _

theorem map_modify {γ : Type} [Renames γ] (a : Array γ) (id : Nat) {f f' : γ → γ}
    (h : ∀ c, f' (ρ.on c) = ρ.on (f c)) :
    (a.map ρ.on).modify id f' = (a.modify id f).map ρ.on := by
  apply Array.ext_getElem?
  intro i
  simp only [Array.getElem?_modify, Array.getElem?_map]
  split
  · cases a[i]? <;> simp [h]
  · rfl

theorem related_modifyModule {m m' : Machine} (hm : ρ.Related m m') (id : Nat)
    {f f' : Module → Module} (hf : ∀ d, f' (ρ.on d) = ρ.on (f d)) :
    ρ.Related { m with modules := m.modules.modify id f }
      { m' with modules := m'.modules.modify id f' } :=
  { hm with modules := by rw [hm.modules, map_modify _ id hf] }

theorem related_modifyFrame {m m' : Machine} (hm : ρ.Related m m') (id : Nat)
    {f f' : Table Value → Table Value} (hf : ∀ t, f' (ρ.on t) = ρ.on (f t)) :
    ρ.Related { m with frames := m.frames.modify id f }
      { m' with frames := m'.frames.modify id f' } :=
  { hm with frames := by rw [hm.frames, map_modify _ id hf] }

theorem keeps_newTag : ρ.Keeps lax Run.newTag :=
  answering .newTag fun m m' hm hn => by
    have hnext := hm.tags 0 hn.tags
    refine ⟨congrArg Identity.fresh hnext.symm, { hm with tags := fun n h => ?_ }⟩
    have hn := hm.tags (n + 1)
    simp only [Nat.add_assoc, Nat.add_comm 1 n] at h ⊢
    exact hn h

theorem keeps_newFrame (bindings : Table Value) :
    ρ.Follows lax (Run.newFrame bindings) (Run.newFrame (ρ.on bindings)) :=
  answering (fun m => .newFrame m bindings) fun m m' hm _ =>
    ⟨by rw [hm.frames, Array.size_map]; rfl,
      { hm with frames := by rw [hm.frames, Array.map_push] }⟩

theorem keeps_newClosure (c : Closure) :
    ρ.Follows lax (Run.newClosure c) (Run.newClosure (ρ.on c)) :=
  answering (fun m => .newClosure m c) fun m m' hm hn => by
    have hsize : ρ.place m.closures.size = m'.closures.size := by
      have hlimit := hn.places
      rw [Array.size_push] at hlimit
      exact hm.places 0 hlimit
    refine ⟨?_, { hm with closures := fun id => ?_, places := fun n h => ?_ }⟩
    · rw [on_object, on_closure, hsize]
      rfl
    · simp only [Array.getElem?_push, hm.closures, ← hsize, ρ.place_injective.eq_iff]
      split <;> rfl
    · have hn := hm.places (n + 1)
      simp only [Array.size_push, Nat.add_assoc, Nat.add_comm 1 n] at h ⊢
      exact hn h

theorem keeps_nameClosure (v : Value) (name : String) :
    ρ.Follows lax (Run.nameClosure v name) (Run.nameClosure (ρ.on v) name) := by
  cases v with
  | object kind parts =>
    cases kind with
    | closure id =>
      cases parts with
      | nil =>
        refine changing (fun m => .nameClosure m id name) fun m m' hm =>
          { hm with closures := fun place => ?_, places := by simpa using hm.places }
        simp only [Array.getElem?_modify, hm.closures, ρ.place_injective.eq_iff]
        split
        · cases m.closures[place]? <;> rfl
        · rfl
      | cons _ _ => exact .pure rfl
    | _ => exact .pure rfl
  | _ => exact .pure rfl

theorem keeps_define (name : String) (v : Value) (s : Scope) :
    ρ.Follows lax (Run.define name v s) (Run.define name (ρ.on v) s) := by
  unfold Run.define
  split
  · exact changing (fun m => .bind m _ name v) fun m m' hm =>
      related_modifyFrame hm _ fun t => Table.put_on t name v
  · exact changing (fun m => .define m _ name v) fun m m' hm =>
      related_modifyModule hm _ fun d => by simp [on_module]

theorem keeps_assign (name : String) (v : Value) (s : Scope) :
    ρ.Follows lax (Run.assign name v s) (Run.assign name (ρ.on v) s) := by
  refine .get (Run.Moves.assign name v s) fun m m' hm => ?_
  rw [hm.find]
  cases m.find name s with
  | frame id => exact changing (fun m => .bind m id name v) fun m m' hm =>
      related_modifyFrame hm id fun t => Table.put_on t name v
  | home id => exact changing (fun m => .define m id name v) fun m m' hm =>
      related_modifyModule hm id fun d => by simp [on_module]
  | absent => exact .fail _
  | endless => exact .throw _

theorem keeps_lookup (name : String) (s : Scope) : ρ.Keeps lax (Run.lookup name s) := by
  refine .get (Run.Moves.lookup name s) fun m m' hm => ?_
  rw [hm.find]
  cases m.find name s with
  | frame id =>
    refine .pure ?_
    simp [hm.frame, ← option_getD_on]
  | home id =>
    refine .pure ?_
    simp [hm.vars, ← option_getD_on]
  | absent =>
    rw [hm.moduleName]
    exact .fail _
  | endless => exact .throw _

theorem keeps_valueIn? (name : String) (id : Nat) : ρ.Keeps lax (Run.valueIn? name id) := by
  refine .get (Run.Tame.valueIn? (R := fun _ => True) name id).moves fun m m' hm => ?_
  rw [hm.searchVariable]
  cases m.searchVariable name id with
  | found home =>
    refine .pure ?_
    rw [hm.vars, Table.get?_on]
    cases (m.module home).vars.get? name <;> rfl
  | absent => exact .pure rfl
  | endless => exact .throw _

theorem keeps_keywordIn? (name : String) (id : Nat) : ρ.Keeps lax (Run.keywordIn? name id) := by
  refine .get (Run.Moves.keywordIn? name id) fun m m' hm => ?_
  rw [hm.keywordsAreValues, hm.searchExpander]
  refine .ite (.bind (keeps_valueIn? name id) fun found => ?_) ?_
  · rcases found with _ | ⟨v, home⟩
    · exact .pure rfl
    · cases v with
      | object kind parts => cases kind <;> cases parts <;> exact .pure rfl
      | _ => exact .pure rfl
  · cases m.searchExpander name id with
    | found home => exact .pure (by rw [hm.expanders, Table.get?_on])
    | absent => exact .pure rfl
    | endless => exact .throw _

theorem keeps_keyword? (head : Value) (s : Scope) :
    ρ.Follows lax (Run.keyword? head s) (Run.keyword? (ρ.on head) s) := by
  cases head with
  | sym name =>
    refine .get (Run.Tame.keyword? (R := fun _ => True) (.sym name) s).moves fun m m' hm => ?_
    rw [hm.isLocal]
    exact .ite (.pure rfl) (keeps_keywordIn? name s.home)
  | _ => exact .pure rfl

theorem keeps_defineKeyword (name : String) (k : Keyword) (id : Nat) :
    ρ.Follows lax (Run.defineKeyword name k id) (Run.defineKeyword name (ρ.on k) id) := by
  refine total (Run.Moves.defineKeyword name k id) fun m m' hm => ?_
  unfold Run.defineKeyword
  simp only [Run.get_bind, hm.keywordsAreValues]
  split
  · exact ⟨(), _, _, rfl, rfl, related_modifyModule hm id fun d => by
      simp [on_module, ← Table.put_on]⟩
  · exact ⟨(), _, _, rfl, rfl, related_modifyModule hm id fun d => by simp [on_module]⟩

theorem keeps_closure? (v : Value) :
    ρ.Follows lax (Run.closure? v) (Run.closure? (ρ.on v)) := by
  cases v with
  | object kind parts =>
    cases kind with
    | closure id =>
      cases parts with
      | nil => exact .reading fun m m' hm => hm.closures id
      | cons _ _ => exact .pure rfl
    | _ => exact .pure rfl
  | _ => exact .pure rfl

theorem keeps_writeTo (p : Port) (text : String) : ρ.Keeps lax (Run.writeTo p text) :=
  changing (fun m => .print m p text) fun _ _ hm => { hm with console := by rw [hm.console] }

theorem keeps_makeModule (name : String) : ρ.Keeps lax (Run.makeModule name) := by
  refine total (Run.Moves.makeModule name) fun m m' hm => ?_
  unfold Run.makeModule
  simp only [Run.get_bind, hm.findModule?]
  cases m.findModule? name with
  | some id => exact ⟨id, m, m', rfl, rfl, hm⟩
  | none =>
    let grow (m : Machine) : Machine :=
      { m with modules := m.modules.push (Module.fresh name [Machine.schemeId]) }
    refine ⟨m.modules.size, grow m, grow m', rfl, ?_, { hm with modules := ?_ }⟩
    · rw [← hm.size]
      rfl
    · change m'.modules.push _ = (m.modules.push _).map ρ.on
      rw [hm.modules, Array.map_push]
      rfl

theorem keeps_exportNames (id : Nat) (names : List String) :
    ρ.Keeps lax (Run.exportNames id names) :=
  changing (fun m => .exportNames m id names) fun _ _ hm =>
    related_modifyModule hm id fun _ => rfl

theorem keeps_importModule (id other : Nat) : ρ.Keeps lax (Run.importModule id other) := by
  unfold Run.importModule
  split
  · exact .pure rfl
  · next hne =>
    exact changing (fun m => .importModule m id other hne) fun m m' hm =>
      related_modifyModule hm id fun _ => rfl

theorem keeps_newList (items : List Value) :
    ρ.Follows lax (Run.newList items) (Run.newList (ρ.on items)) :=
  .bind keeps_newTag fun tag => .pure (on_list tag items).symm

theorem keeps_newVector (items : List Value) :
    ρ.Follows lax (Run.newVector items) (Run.newVector (ρ.on items)) :=
  .bind keeps_newTag fun tag => .pure (on_vector tag items).symm

theorem keeps_newText (text : String) : ρ.Keeps lax (Run.newText text) :=
  .bind keeps_newTag fun _ => .pure rfl

theorem keeps_newImproper (items : List Value) (tail : Value) :
    ρ.Follows lax (Run.newImproper items tail) (Run.newImproper (ρ.on items) (ρ.on tail)) :=
  .bind keeps_newTag fun tag => .pure (on_improper tag items tail).symm

theorem keeps_newAttached (items : List Value) (tail : Value) :
    ρ.Follows lax (Run.newAttached items tail) (Run.newAttached (ρ.on items) (ρ.on tail)) :=
  .bind keeps_newTag fun tag => .pure (Node.attach_on tag items tail)

theorem keeps_ofNumber (n : Number) : ρ.Keeps lax (Run.ofNumber n) := by
  cases n with
  | int n => exact .pure rfl
  | real x => exact .bind keeps_newTag fun _ => .pure rfl

theorem keeps_text (v : Value) : ρ.Follows lax (Run.text v) (Run.text (ρ.on v)) :=
  .reading fun _ _ hm => hm.write v

theorem keeps_displayed (v : Value) :
    ρ.Follows lax (Run.displayed v) (Run.displayed (ρ.on v)) :=
  .reading fun _ _ hm => hm.display v

theorem keeps_described (v : Value) :
    ρ.Follows lax (Run.described v) (Run.described (ρ.on v)) :=
  .reading fun _ _ hm => hm.describe v

theorem keeps_label (v : Value) : ρ.Follows lax (Run.label v) (Run.label (ρ.on v)) :=
  .reading fun _ _ hm => hm.label v

theorem keeps_moduleName (v : Value) :
    ρ.Follows lax (Run.moduleName v) (Run.moduleName (ρ.on v)) := by
  refine .get (Run.Tame.moduleName (R := fun _ => True) v).moves fun m m' hm => ?_
  rw [hm.moduleName?]
  cases m.moduleName? v with
  | some name => exact .pure rfl
  | none => exact .bind (keeps_described v) fun _ => .fail _

theorem keeps_resolveModule (v : Value) :
    ρ.Follows lax (Run.resolveModule v) (Run.resolveModule (ρ.on v)) := by
  refine .get (Run.Tame.resolveModule (R := fun _ => True) v).moves fun m m' hm => ?_
  rw [hm.moduleFor?]
  cases m.moduleFor? v with
  | some id => exact .pure rfl
  | none => exact .bind (keeps_moduleName v) fun _ => .fail _

/-- Both runs return to the same module, however they end. -/
theorem follows_within (id : Nat) {x x' : Run α} (hx : ρ.Follows lax x x') :
    ρ.Follows lax (Run.within id x) (Run.within id x') where
  moves := hx.moves.within id
  run {m m'} hm hn := by
    have hrun := hx.run (hm.select id)
    generalize h' : x' { m' with current := id } = r' at hrun
    cases h : x { m with current := id } with
    | ok a k =>
      rw [Run.after_of_ok (Run.within_of_ok h)] at hn
      rw [Run.after_of_ok h, h] at hrun
      rw [Run.within_of_ok h]
      cases hrun ⟨hn.tags, hn.places⟩ with
      | ok hk =>
        rw [Run.within_of_ok h', hm.current]
        exact .ok (hk.select m.current)
    | error stop k =>
      rw [Run.after_of_error (Run.within_of_error h)] at hn
      rw [Run.after_of_error h, h] at hrun
      rw [Run.within_of_error h]
      cases hrun ⟨hn.tags, hn.places⟩ with
      | error hk =>
        rw [Run.within_of_error h', hm.current]
        exact .error (hk.select m.current)
      | endless hlax => exact .endless hlax

/-- A run whose end is looked at. It may give up only if the program then does so as well. -/
theorem follows_attempt {x x' : Run α} {f f' : Except Stop α → Run β} (hx : ρ.Follows lax x x')
    (hf : ∀ outcome, ρ.Follows lax (f outcome) (f' (ρ.on outcome)))
    (hendless : f (.error .endless) = MonadExcept.throw .endless) :
    ρ.Follows lax (Run.attempt x >>= f) (Run.attempt x' >>= f') where
  moves := (Run.Tame.attempt (R := fun _ => True) hx.moves).moves.bind fun e => (hf e).moves
  run {m m'} hm hn := by
    have hok : ∀ {x : Run α} {f : Except Stop α → Run β} {m n a}, x m = .ok a n →
        (Run.attempt x >>= f) m = f (.ok a) n :=
      fun {x f m n a} h => bind_of_ok (x := Run.attempt x) (by rw [Run.attempt, h])
    have herror : ∀ {x : Run α} {f : Except Stop α → Run β} {m n stop}, x m = .error stop n →
        (Run.attempt x >>= f) m = f (.error stop) n :=
      fun {x f m n stop} h => bind_of_ok (x := Run.attempt x) (by rw [Run.attempt, h])
    have hrun := hx.run hm
    generalize h' : x' m' = r' at hrun
    cases h : x m with
    | ok a k =>
      rw [Run.after, hok h] at hn
      rw [Run.after_of_ok h, h] at hrun
      rw [hok h]
      cases hrun (hn.mono ((hf _).moves k)) with
      | ok hk =>
        rw [hok h']
        exact (hf (.ok a)).run hk hn
    | error stop k =>
      rw [Run.after, herror h] at hn
      rw [Run.after_of_error h, h] at hrun
      rw [herror h]
      cases hrun (hn.mono ((hf _).moves k)) with
      | error hk =>
        rw [herror h']
        exact (hf (.error stop)).run hk hn
      | endless hlax =>
        rw [hendless]
        exact .endless hlax

/-- The same for a run whose output is captured. -/
theorem follows_capturing {x x' : Run α} {f f' : Except Stop α × String → Run β}
    (hx : ρ.Follows lax x x') (hf : ∀ outcome, ρ.Follows lax (f outcome) (f' (ρ.on outcome)))
    (hendless : ∀ printed, f (.error .endless, printed) = MonadExcept.throw .endless) :
    ρ.Follows lax (Run.capturing x >>= f) (Run.capturing x' >>= f') where
  moves := hx.moves.capturing.bind fun outcome => (hf outcome).moves
  run {m m'} hm hn := by
    have hprinted : ∀ {k k' : Machine}, ρ.Related k k' →
        k'.console.captures.headD "" = k.console.captures.headD "" := fun hk => by rw [hk.console]
    have hrun := hx.run hm.beginCapture
    generalize h' : x' m'.beginCapture = r' at hrun
    cases h : x m.beginCapture with
    | ok a k =>
      rw [Run.after, bind_of_ok (Run.capturing_of_ok h)] at hn
      rw [Run.after_of_ok h, h] at hrun
      rw [bind_of_ok (Run.capturing_of_ok h)]
      have hadmits : ρ.Admits k.endCapture := hn.mono ((hf _).moves _)
      cases hrun ⟨hadmits.tags, hadmits.places⟩ with
      | ok hk =>
        rw [bind_of_ok (Run.capturing_of_ok h'), hprinted hk]
        exact (hf (.ok a, _)).run hk.endCapture hn
    | error stop k =>
      rw [Run.after, bind_of_ok (Run.capturing_of_error h)] at hn
      rw [Run.after_of_error h, h] at hrun
      rw [bind_of_ok (Run.capturing_of_error h)]
      have hadmits : ρ.Admits k.endCapture := hn.mono ((hf _).moves _)
      cases hrun ⟨hadmits.tags, hadmits.places⟩ with
      | error hk =>
        rw [bind_of_ok (Run.capturing_of_error h'), hprinted hk]
        exact (hf (.error stop, _)).run hk.endCapture hn
      | endless hlax =>
        rw [hendless]
        exact .endless hlax

/-- What is done in the module that is current. -/
theorem follows_current {f f' : Nat → Run α} (hf : ∀ id, ρ.Follows lax (f id) (f' id)) :
    ρ.Follows lax (MonadState.get >>= fun m => f m.current)
      (MonadState.get >>= fun m => f' m.current) :=
  .get (Run.Moves.get.bind fun m => (hf m.current).moves) fun m m' hm => by
    rw [hm.current]
    exact hf m.current

mutual

theorem keeps_ofDatum : ∀ d : Datum, ρ.Keeps lax (Run.ofDatum d)
  | .bool _ | .int _ | .char _ | .sym _ => by
    unfold Run.ofDatum
    exact .pure rfl
  | .real _ | .str _ => by
    unfold Run.ofDatum
    exact .bind keeps_newTag fun _ => .pure rfl
  | .list items => by
    unfold Run.ofDatum
    exact .bind (keeps_ofData items) fun vs => keeps_newList vs
  | .vector items => by
    unfold Run.ofDatum
    exact .bind (keeps_ofData items) fun vs => keeps_newVector vs
  | .improper items tail => by
    unfold Run.ofDatum
    exact .bind (keeps_ofData items) fun vs => .bind (keeps_ofDatum tail) fun v =>
      keeps_newImproper vs v
  | .object kind _ => kind.elim

theorem keeps_ofData : ∀ ds : List Datum, ρ.Keeps lax (Run.ofData ds)
  | [] => by
    unfold Run.ofData
    exact .pure rfl
  | d :: rest => by
    unfold Run.ofData
    exact .bind (keeps_ofDatum d) fun _ => .bind (keeps_ofData rest) fun _ => .pure rfl

end

end Operations

end Comparison

end LiveScheme
