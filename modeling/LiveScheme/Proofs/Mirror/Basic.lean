import LiveScheme.Proofs.Machine.Evaluation
import LiveScheme.Proofs.Value.Standard

/-!
# Runs that mirror each other

Two runs of a program on related machines are compared step by step. As long as nothing stands in
the way, the second does what the first does: the same answer or the same error, on machines that
are related again. Two things may stand in the way. The first run may stop in a way that says
nothing about the second, which excuses it, or its machine may be lost to the comparison for good.
The answers of the first run live up to the standard of the comparison all the time.
-/

set_option linter.unusedSectionVars false

namespace LiveScheme

/-- What a comparison of runs is about. -/
structure Link where
  standard : Standard
  related : Machine → Machine → Prop
  lost : Machine → Prop
  excused : Stop → Machine → Prop

namespace Link

variable {α β : Type}

/-- The second run follows the first one, whose answers satisfy `P`. -/
structure Follows (L : Link) (P : α → Prop) (x x' : Run α) : Prop where
  ok : ∀ {m m' a n}, L.related m m' → x m = .ok a n →
    P a ∧ (L.lost n ∨ ∃ n', x' m' = .ok a n' ∧ L.related n n')
  error : ∀ {m m' stop n}, L.related m m' → x m = .error stop n →
    L.lost n ∨ L.excused stop n ∨ ∃ n', x' m' = .error stop n' ∧ L.related n n'
  lostOk : ∀ {m a n}, L.lost m → x m = .ok a n → P a ∧ L.lost n
  lostError : ∀ {m stop n}, L.lost m → x m = .error stop n → L.lost n

/-- The second run follows the first one, whose answers live up to the standard. -/
def Mirrors [Checkable α] (L : Link) (x x' : Run α) : Prop := L.Follows (Meets L.standard) x x'

/-- A program that does the same on related machines. -/
abbrev Keeps [Checkable α] (L : Link) (x : Run α) : Prop := L.Mirrors x x

namespace Follows

variable {L : Link} {P Q : α → Prop}

theorem weaken {x x' : Run α} (h : L.Follows P x x') (hPQ : ∀ a, P a → Q a) :
    L.Follows Q x x' where
  ok hm hx := (h.ok hm hx).imp_left (hPQ _)
  error := h.error
  lostOk hm hx := (h.lostOk hm hx).imp_left (hPQ _)
  lostError := h.lostError

theorem pure {a : α} (ha : P a) : L.Follows P (Pure.pure a) (Pure.pure a) where
  ok hm hx := by
    cases hx
    exact ⟨ha, .inr ⟨_, rfl, hm⟩⟩
  error hm hx := by cases hx
  lostOk hm hx := by
    cases hx
    exact ⟨ha, hm⟩
  lostError hm hx := by cases hx

theorem throw (stop : Stop) : L.Follows P (throw stop) (throw stop) where
  ok hm hx := by cases hx
  error hm hx := by
    cases hx
    exact .inr (.inr ⟨_, rfl, hm⟩)
  lostOk hm hx := by cases hx
  lostError hm hx := by
    cases hx
    exact hm

theorem bind {R : β → Prop} {x x' : Run α} {f f' : α → Run β} (hx : L.Follows P x x')
    (hf : ∀ a, P a → L.Follows R (f a) (f' a)) : L.Follows R (x >>= f) (x' >>= f') where
  ok {m m' b n} hm h := by
    cases h₁ : x m with
    | error stop n₁ => rw [bind_of_error h₁] at h; cases h
    | ok a n₁ =>
      rw [bind_of_ok h₁] at h
      obtain ⟨ha, hlost | ⟨n₁', h₁', hn⟩⟩ := hx.ok hm h₁
      · exact ((hf a ha).lostOk hlost h).imp_right .inl
      · rw [bind_of_ok h₁']
        exact (hf a ha).ok hn h
  error {m m' stop n} hm h := by
    cases h₁ : x m with
    | error stop n₁ =>
      rw [bind_of_error h₁] at h
      cases h
      refine (hx.error hm h₁).imp_right (Or.imp_right ?_)
      rintro ⟨n', h₁', hn⟩
      exact ⟨n', bind_of_error h₁', hn⟩
    | ok a n₁ =>
      rw [bind_of_ok h₁] at h
      obtain ⟨ha, hlost | ⟨n₁', h₁', hn⟩⟩ := hx.ok hm h₁
      · exact .inl ((hf a ha).lostError hlost h)
      · rw [bind_of_ok h₁']
        exact (hf a ha).error hn h
  lostOk {m b n} hm h := by
    cases h₁ : x m with
    | error stop n₁ => rw [bind_of_error h₁] at h; cases h
    | ok a n₁ =>
      rw [bind_of_ok h₁] at h
      obtain ⟨ha, hlost⟩ := hx.lostOk hm h₁
      exact (hf a ha).lostOk hlost h
  lostError {m stop n} hm h := by
    cases h₁ : x m with
    | error stop n₁ =>
      rw [bind_of_error h₁] at h
      cases h
      exact hx.lostError hm h₁
    | ok a n₁ =>
      rw [bind_of_ok h₁] at h
      obtain ⟨ha, hlost⟩ := hx.lostOk hm h₁
      exact (hf a ha).lostError hlost h

/-- What a program reads off its machine, it may read off the related one as well. -/
theorem reading {f f' : Machine → Run α} (hread : ∀ m m', L.related m m' → f' m' = f' m)
    (hf : ∀ m, L.Follows P (f m) (f' m)) : L.Follows P (get >>= f) (get >>= f') where
  ok {m m' a n} hm h := by
    rw [Run.get_bind] at h ⊢
    rw [hread m m' hm]
    exact (hf m).ok hm h
  error {m m' stop n} hm h := by
    rw [Run.get_bind] at h ⊢
    rw [hread m m' hm]
    exact (hf m).error hm h
  lostOk {m a n} hm h := (hf m).lostOk hm h
  lostError {m stop n} hm h := (hf m).lostError hm h

end Follows

/-- The operations on machines that all programs are made of, on related machines. -/
class Lawful (L : Link) : Prop where
  objectText : ∀ {m m'}, L.related m m' → m'.objectText = m.objectText
  findModule? : ∀ {m m'}, L.related m m' → m'.findModule? = m.findModule?
  moduleName : ∀ {m m'} (id : Nat), L.related m m' → (m'.module id).name = (m.module id).name
  isLocal : ∀ {m m'}, L.related m m' → m'.isLocal = m.isLocal
  current : ∀ {m m'}, L.related m m' → m'.current = m.current
  disk : ∀ {m m'}, L.related m m' → m'.disk = m.disk
  select : ∀ {m m'} (id : Nat), L.related m m' →
    L.related { m with current := id } { m' with current := id }
  selectLost : ∀ {m} (id : Nat), L.lost m → L.lost { m with current := id }
  selectExcused : ∀ {stop m} (id : Nat), L.excused stop m →
    L.excused stop { m with current := id }
  newTag : L.Keeps Run.newTag
  newFrame : ∀ bindings : Table Value, Meets L.standard bindings → L.Keeps (Run.newFrame bindings)
  newClosure : ∀ c : Closure, Meets L.standard c → L.Keeps (Run.newClosure c)
  define : ∀ name (v : Value) s, Meets L.standard v → L.Keeps (Run.define name v s)
  assign : ∀ name (v : Value) s, Meets L.standard v → L.Keeps (Run.assign name v s)
  lookup : ∀ name s, L.Keeps (Run.lookup name s)
  keywordIn? : ∀ name id, L.Keeps (Run.keywordIn? name id)
  defineKeyword : ∀ name k id, L.Keeps (Run.defineKeyword name k id)
  closure? : ∀ v, L.Keeps (Run.closure? v)
  nameClosure : ∀ v name, L.Keeps (Run.nameClosure v name)
  writeTo : ∀ p text, L.Keeps (Run.writeTo p text)
  makeModule : ∀ name, L.Keeps (Run.makeModule name)
  exportNames : ∀ id names, L.Keeps (Run.exportNames id names)
  importModule : ∀ id other, L.Keeps (Run.importModule id other)

attribute [grind .] Lawful.newTag Lawful.lookup Lawful.keywordIn? Lawful.defineKeyword
  Lawful.closure? Lawful.nameClosure Lawful.writeTo Lawful.makeModule Lawful.exportNames
  Lawful.importModule
attribute [grind ←] Lawful.newFrame Lawful.newClosure Lawful.define Lawful.assign

/-- A first run that stops before its end is excused, whatever the second one does. -/
def Forgiving (L : Link) : Prop := ∀ {m m'}, L.related m m' → L.excused .endless m

theorem Forgiving.follows {L : Link} (hL : L.Forgiving) {P : α → Prop} (x : Run α) :
    L.Follows P (throw .endless) x where
  ok hm hx := by cases hx
  error hm hx := by
    cases hx
    exact .inr (.inl (hL hm))
  lostOk hm hx := by cases hx
  lostError hm hx := by
    cases hx
    exact hm

namespace Mirrors

variable {L : Link} [Checkable α] [Checkable β]

@[grind ←] theorem pure {a : α} (ha : Meets L.standard a) :
    L.Mirrors (Pure.pure a) (Pure.pure a) := Follows.pure ha

@[grind .] theorem throw (stop : Stop) : L.Mirrors (throw stop : Run α) (throw stop) :=
  Follows.throw stop

@[grind .] theorem fail (e : SchemeError) : L.Mirrors (Run.fail e : Run α) (Run.fail e) :=
  throw _

@[grind .] theorem faulty (f : Fault) : L.Mirrors (Run.faulty f : Run α) (Run.faulty f) :=
  throw _

@[grind ←] theorem bind {x x' : Run α} {f f' : α → Run β} (hx : L.Mirrors x x')
    (hf : ∀ a, Meets L.standard a → L.Mirrors (f a) (f' a)) :
    L.Mirrors (x >>= f) (x' >>= f') := Follows.bind hx hf

theorem ite {c : Prop} [Decidable c] {x y x' y' : Run α} (hx : L.Mirrors x x')
    (hy : L.Mirrors y y') : L.Mirrors (if c then x else y) (if c then x' else y') := by
  split
  · exact hx
  · exact hy

/-- A check in front of the rest of a program. -/
theorem check {c : Prop} [Decidable c] {y y' : Run Unit} {x x' : Run α} (hy : L.Mirrors y y')
    (hx : L.Mirrors x x') :
    L.Mirrors (if c then y >>= fun _ => x else x) (if c then y' >>= fun _ => x' else x') :=
  .ite (.bind hy fun _ _ => hx) hx

theorem reading {f f' : Machine → Run α} (hread : ∀ m m', L.related m m' → f' m' = f' m)
    (hf : ∀ m, L.Mirrors (f m) (f' m)) : L.Mirrors (get >>= f) (get >>= f') :=
  Follows.reading hread hf

end Mirrors

section Operations

variable {L : Link} [Checkable α]

@[grind ←] theorem keeps_ofFault {r : Except Fault α} (h : ∀ a, r = .ok a → Meets L.standard a) :
    L.Keeps (Run.ofFault r) := by
  cases r with
  | ok a => exact .pure (h a rfl)
  | error f => exact .faulty f

@[grind ←] theorem keeps_ofRead {r : Except ReadError α}
    (h : ∀ a, r = .ok a → Meets L.standard a) : L.Keeps (Run.ofRead r) := by
  unfold Run.ofRead
  split
  · exact .pure (h _ rfl)
  · exact .faulty _
  · exact .fail _

variable [L.Lawful]

@[grind ←] theorem keeps_newList {items : List Value} (h : Meets L.standard items) :
    L.Keeps (Run.newList items) :=
  .bind Lawful.newTag fun _ _ => .pure (meets_list.mpr h)

@[grind ←] theorem keeps_newVector {items : List Value} (h : Meets L.standard items) :
    L.Keeps (Run.newVector items) :=
  .bind Lawful.newTag fun _ _ => .pure (meets_vector.mpr h)

@[grind .] theorem keeps_newText (text : String) : L.Keeps (Run.newText text) :=
  .bind Lawful.newTag fun _ _ => .pure (meets_str _ _)

theorem keeps_newImproper {items : List Value} {tail : Value}
    (h : ∀ t, Meets L.standard (Node.improper t items tail)) :
    L.Keeps (Run.newImproper items tail) :=
  .bind Lawful.newTag fun t _ => .pure (h t)

theorem keeps_newAttached {items : List Value} {tail : Value}
    (h : ∀ t, Meets L.standard (Node.attach t items tail)) :
    L.Keeps (Run.newAttached items tail) :=
  .bind Lawful.newTag fun t _ => .pure (h t)

@[grind .] theorem keeps_ofNumber (n : Number) : L.Keeps (Run.ofNumber n) := by
  cases n with
  | int n => exact .pure (meets_int n)
  | real x => exact .bind Lawful.newTag fun _ _ => .pure (meets_real _ _)

/-- What is done in the module that is current. -/
theorem mirrors_current {f f' : Nat → Run α} (hf : ∀ id, L.Mirrors (f id) (f' id)) :
    L.Mirrors (get >>= fun m => f m.current) (get >>= fun m => f' m.current) :=
  .reading (fun _ _ hm => by rw [Lawful.current hm]) fun m => hf m.current

/-- Related machines print the same. -/
theorem keeps_printing (f : (Object → Option String) → String) :
    L.Keeps (do return f (← get).objectText) :=
  .reading (fun _ _ hm => by rw [Lawful.objectText hm]) fun _ => .pure (meets_plain _ _)

@[grind .] theorem keeps_text (v : Value) : L.Keeps (Run.text v) :=
  keeps_printing fun name => String.ofList (v.chars name true)

@[grind .] theorem keeps_displayed (v : Value) : L.Keeps (Run.displayed v) :=
  keeps_printing fun name => String.ofList (v.chars name false)

@[grind .] theorem keeps_described (v : Value) : L.Keeps (Run.described v) :=
  keeps_printing fun name => String.ofList (v.described name)

@[grind .] theorem keeps_label (v : Value) : L.Keeps (Run.label v) :=
  keeps_printing fun name => String.ofList (v.label name)

@[grind .] theorem keeps_keyword? (head : Value) (s : Scope) : L.Keeps (Run.keyword? head s) := by
  unfold Run.keyword?
  split
  · next name =>
    refine .reading (fun m m' hm => by rw [Lawful.isLocal hm]) fun m => ?_
    exact .ite (.pure (meets_none.mpr trivial)) (Lawful.keywordIn? _ _)
  · exact .pure (meets_none.mpr trivial)

theorem moduleName?_eq {m m' : Machine} (hm : L.related m m') :
    m'.moduleName? = m.moduleName? := by
  funext v
  unfold Machine.moduleName?
  rw [Lawful.objectText hm]
  split
  · rw [Lawful.moduleName _ hm]
  all_goals rfl

theorem moduleFor?_eq {m m' : Machine} (hm : L.related m m') (v : Value) :
    m'.moduleFor? v = m.moduleFor? v := by
  unfold Machine.moduleFor?
  rw [moduleName?_eq hm, Lawful.findModule? hm]

@[grind .] theorem keeps_moduleName (v : Value) : L.Keeps (Run.moduleName v) := by
  refine .reading (fun m m' hm => by rw [moduleName?_eq hm]) fun m => ?_
  cases m.moduleName? v with
  | some name => exact .pure (meets_plain _ _)
  | none => exact .bind (keeps_described v) fun _ _ => .fail _

@[grind .] theorem keeps_resolveModule (v : Value) : L.Keeps (Run.resolveModule v) := by
  refine .reading (fun m m' hm => by rw [moduleFor?_eq hm]) fun m => ?_
  cases m.moduleFor? v with
  | some id => exact .pure (meets_plain _ _)
  | none => exact .bind (keeps_moduleName v) fun _ _ => .fail _

/-- Both runs return to the same module, however they end. -/
@[grind ←] theorem mirrors_within (id : Nat) {x x' : Run α} (hx : L.Mirrors x x') :
    L.Mirrors (Run.within id x) (Run.within id x') where
  ok {m m' a n} hm h := by
    cases h₁ : x { m with current := id } with
    | error stop n₁ => rw [Run.within_of_error h₁] at h; cases h
    | ok b n₁ =>
      rw [Run.within_of_ok h₁] at h
      cases h
      refine (hx.ok (Lawful.select id hm) h₁).imp_right (Or.imp (Lawful.selectLost _) ?_)
      rintro ⟨n', h', hn⟩
      refine ⟨_, Run.within_of_ok h', ?_⟩
      rw [Lawful.current hm]
      exact Lawful.select m.current hn
  error {m m' stop n} hm h := by
    cases h₁ : x { m with current := id } with
    | ok b n₁ => rw [Run.within_of_ok h₁] at h; cases h
    | error stop n₁ =>
      rw [Run.within_of_error h₁] at h
      cases h
      refine (hx.error (Lawful.select id hm) h₁).imp (Lawful.selectLost _)
        (Or.imp (Lawful.selectExcused _) ?_)
      rintro ⟨n', h', hn⟩
      refine ⟨_, Run.within_of_error h', ?_⟩
      rw [Lawful.current hm]
      exact Lawful.select m.current hn
  lostOk {m a n} hm h := by
    cases h₁ : x { m with current := id } with
    | error stop n₁ => rw [Run.within_of_error h₁] at h; cases h
    | ok b n₁ =>
      rw [Run.within_of_ok h₁] at h
      cases h
      exact (hx.lostOk (Lawful.selectLost id hm) h₁).imp_right (Lawful.selectLost _)
  lostError {m stop n} hm h := by
    cases h₁ : x { m with current := id } with
    | ok b n₁ => rw [Run.within_of_ok h₁] at h; cases h
    | error stop n₁ =>
      rw [Run.within_of_error h₁] at h
      cases h
      exact Lawful.selectLost _ (hx.lostError (Lawful.selectLost id hm) h₁)

/-- Both machines select the same module. -/
theorem keeps_select (id : Nat) :
    L.Keeps (modify fun m => { m with current := id } : Run Unit) where
  ok hm hx := by
    cases hx
    exact ⟨trivial, .inr ⟨_, rfl, Lawful.select id hm⟩⟩
  error hm hx := by cases hx
  lostOk hm hx := by
    cases hx
    exact ⟨trivial, Lawful.selectLost id hm⟩
  lostError hm hx := by cases hx

mutual

/-- A datum becomes a value of the same shape. -/
theorem follows_ofDatum : ∀ d : Datum, Meets L.standard d →
    L.Follows (fun v => Meets L.standard v ∧ v.endsChain = d.endsChain) (Run.ofDatum d)
      (Run.ofDatum d)
  | .bool _, _ | .int _, _ | .char _, _ | .sym _, _ => by
    unfold Run.ofDatum
    exact .pure ⟨rfl, rfl⟩
  | .real _, _ | .str _, _ => by
    unfold Run.ofDatum
    exact .bind Lawful.newTag fun _ _ => .pure ⟨rfl, rfl⟩
  | .list items, h => by
    unfold Run.ofDatum
    exact .bind (follows_ofData items (meets_list.mp h)) fun _ hvs =>
      .bind Lawful.newTag fun _ _ => .pure ⟨meets_list.mpr hvs.1, rfl⟩
  | .vector items, h => by
    unfold Run.ofDatum
    exact .bind (follows_ofData items (meets_vector.mp h)) fun _ hvs =>
      .bind Lawful.newTag fun _ _ => .pure ⟨meets_vector.mpr hvs.1, rfl⟩
  | .improper items tail, h => by
    unfold Run.ofDatum
    obtain ⟨hpair, hitems, htail⟩ := meets_improper.mp h
    refine .bind (follows_ofData items hitems) fun vs hvs =>
      .bind (follows_ofDatum tail htail) fun v hv => .bind Lawful.newTag fun _ _ => .pure ⟨?_, rfl⟩
    refine meets_improper.mpr ⟨hpair.imp_right fun ⟨hne, hend⟩ => ?_, hvs.1, hv.1⟩
    exact ⟨fun hnil => hne (hvs.2 hnil), hv.2.trans hend⟩
  | .object kind _, _ => kind.elim

theorem follows_ofData : ∀ ds : List Datum, Meets L.standard ds →
    L.Follows (fun vs => Meets L.standard vs ∧ (vs = [] → ds = [])) (Run.ofData ds) (Run.ofData ds)
  | [], _ => by
    unfold Run.ofData
    exact .pure ⟨meets_nil.mpr trivial, fun _ => rfl⟩
  | d :: rest, h => by
    unfold Run.ofData
    obtain ⟨hd, hrest⟩ := meets_cons.mp h
    exact .bind (follows_ofDatum d hd) fun _ hv => .bind (follows_ofData rest hrest) fun _ hvs =>
      .pure ⟨meets_cons.mpr ⟨hv.1, hvs.1⟩, fun hnil => by cases hnil⟩

end

theorem keeps_ofDatum {d : Datum} (h : Meets L.standard d) : L.Keeps (Run.ofDatum d) :=
  (follows_ofDatum d h).weaken fun _ hv => hv.1

theorem keeps_ofData {ds : List Datum} (h : Meets L.standard ds) : L.Keeps (Run.ofData ds) :=
  (follows_ofData ds h).weaken fun _ hvs => hvs.1

end Operations

end Link

end LiveScheme
