import LiveScheme.Proofs.Machine.Checked

/-!
# Tame runs

A tame run makes changes of the known kinds only, and its faults are among given ones. Sequences of
tame runs are tame, whatever one of them answers to the next, and so is a run inside another module.
A captured run may fault as it likes: how it ended is what the capture answers.
-/

namespace LiveScheme

namespace Run

variable {R : Fault → Prop} {α β : Type}

/-- What the run does to the machine is known, and if it faults, then with one of the given
faults. -/
structure TameAt (R : Fault → Prop) (x : Run α) (m : Machine) : Prop where
  moves : m.Becomes (x.after m)
  faults : ∀ {f n}, x m = .error (.fault f) n → R f

def Tame (R : Fault → Prop) (x : Run α) : Prop := ∀ m, x.TameAt R m

namespace TameAt

theorem of_eq {x y : Run α} {m : Machine} (h : x m = y m) (hy : y.TameAt R m) : x.TameAt R m :=
  ⟨by rw [after, h]; exact hy.moves, fun hfault => hy.faults (h ▸ hfault)⟩

/-- What follows may rely on how the first run has ended. -/
theorem bind_of {x : Run α} {f : α → Run β} {m : Machine} (hx : x.TameAt R m)
    (hf : ∀ a n, x m = .ok a n → (f a).TameAt R n) : (x >>= f).TameAt R m := by
  have hm := hx.moves
  cases hrun : x m with
  | error stop m' =>
    rw [after_of_error hrun] at hm
    refine ⟨by rwa [after_of_error (bind_of_error hrun)], fun h => ?_⟩
    rw [bind_of_error hrun] at h
    cases h
    exact hx.faults hrun
  | ok a m' =>
    rw [after_of_ok hrun] at hm
    have hrest := hf a m' hrun
    refine ⟨?_, fun h => ?_⟩
    · rw [after, bind_of_ok hrun]
      exact hm.trans hrest.moves
    · rw [bind_of_ok hrun] at h
      exact hrest.faults h

theorem bind {x : Run α} {f : α → Run β} {m : Machine} (hx : x.TameAt R m)
    (hf : ∀ a, (f a).Tame R) : (x >>= f).TameAt R m := hx.bind_of fun a n _ => hf a n

end TameAt

theorem Moves.tame {x : Run α} (h : x.Moves) : x.Tame fun _ => True :=
  fun m => ⟨h m, fun _ => trivial⟩

namespace Tame

theorem moves {x : Run α} (h : x.Tame R) : x.Moves := fun m => (h m).moves

/-- A run that always answers. -/
theorem answering {x : Run α} (hx : x.Moves) (h : ∀ m, ∃ a n, x m = .ok a n) : x.Tame R :=
  fun m => ⟨hx m, fun hfault => by
    obtain ⟨a, n, hok⟩ := h m
    rw [hok] at hfault
    cases hfault⟩

@[grind .] theorem pure (a : α) : Tame R (Pure.pure a) := answering (.pure a) fun m => ⟨a, m, rfl⟩

theorem throw {stop : Stop} (h : ∀ f, stop = .fault f → R f) : Tame R (throw stop : Run α) :=
  fun m => ⟨.refl m, fun hfault => by
    cases hfault
    exact h _ rfl⟩

@[grind .] theorem fail (e : SchemeError) : Tame R (Run.fail e : Run α) := throw nofun

@[grind .] theorem endless : Tame R (MonadExcept.throw Stop.endless : Run α) := throw nofun

@[grind .] theorem exit (code : ExitCode) : Tame R (MonadExcept.throw (Stop.exit code) : Run α) :=
  throw nofun

theorem bind_of {x : Run α} {f : α → Run β} (hx : x.Tame R)
    (hf : ∀ a m n, x m = .ok a n → (f a).Tame R) : Tame R (x >>= f) :=
  fun m => (hx m).bind_of fun a n h => hf a m n h n

@[grind ←] theorem bind {x : Run α} {f : α → Run β} (hx : x.Tame R) (hf : ∀ a, (f a).Tame R) :
    Tame R (x >>= f) := hx.bind_of fun a _ _ _ => hf a

@[grind ←] theorem ofFault {r : Except Fault α} (h : ∀ f, r = .error f → R f) :
    Tame R (Run.ofFault r) := by
  cases r with
  | ok a => exact pure a
  | error f => exact throw fun f' hf => by cases hf; exact h f rfl

theorem ofRead {r : Except ReadError α} (h : ∀ f, r = .error (.fault f) → R f) :
    Tame R (Run.ofRead r) := by
  unfold Run.ofRead
  split
  · exact pure _
  · next f => exact throw fun f' hf => by cases hf; exact h f rfl
  · exact fail _

theorem ite {c : Prop} [Decidable c] {x y : Run α} (hx : x.Tame R) (hy : y.Tame R) :
    (if c then x else y).Tame R := by
  split
  · exact hx
  · exact hy

@[grind .] theorem get : Tame R get := answering .get fun m => ⟨m, m, rfl⟩

@[grind .] theorem newTag : Tame R Run.newTag := answering .newTag fun _ => ⟨_, _, rfl⟩

@[grind .] theorem newList (items : List Value) : (Run.newList items).Tame R :=
  newTag.bind fun _ => pure _

@[grind .] theorem newVector (items : List Value) : (Run.newVector items).Tame R :=
  newTag.bind fun _ => pure _

@[grind .] theorem newText (text : String) : (Run.newText text).Tame R :=
  newTag.bind fun _ => pure _

@[grind .] theorem newImproper (items : List Value) (tail : Value) :
    (Run.newImproper items tail).Tame R := newTag.bind fun _ => pure _

@[grind .] theorem newAttached (items : List Value) (tail : Value) :
    (Run.newAttached items tail).Tame R := newTag.bind fun _ => pure _

@[grind .] theorem ofNumber (n : Number) : (Run.ofNumber n).Tame R := by
  cases n with
  | int n => exact pure _
  | real x => exact newTag.bind fun _ => pure _

@[grind .] theorem text (v : Value) : (Run.text v).Tame R := get.bind fun _ => pure _

@[grind .] theorem displayed (v : Value) : (Run.displayed v).Tame R := get.bind fun _ => pure _

@[grind .] theorem described (v : Value) : (Run.described v).Tame R := get.bind fun _ => pure _

@[grind .] theorem label (v : Value) : (Run.label v).Tame R := get.bind fun _ => pure _

@[grind .] theorem newFrame (bindings : Table Value) : (Run.newFrame bindings).Tame R :=
  answering (.newFrame bindings) fun _ => ⟨_, _, rfl⟩

@[grind .] theorem newClosure (c : Closure) : (Run.newClosure c).Tame R :=
  answering (.newClosure c) fun _ => ⟨_, _, rfl⟩

@[grind .] theorem define (name : String) (v : Value) (s : Scope) :
    (Run.define name v s).Tame R := by
  refine answering (.define name v s) fun m => ?_
  unfold Run.define
  cases s.frames <;> exact ⟨_, _, rfl⟩

@[grind .] theorem lookup (name : String) (s : Scope) : (Run.lookup name s).Tame R := by
  refine get.bind fun m => ?_
  cases m.find name s with
  | frame id | home id => exact pure _
  | absent => exact fail _
  | endless => exact endless

@[grind .] theorem assign (name : String) (v : Value) (s : Scope) :
    (Run.assign name v s).Tame R := by
  refine fun m => ⟨Moves.assign name v s m, fun h => ?_⟩
  unfold Run.assign at h
  rw [get_bind] at h
  cases hfind : m.find name s <;> rw [hfind] at h <;> cases h

@[grind .] theorem valueIn? (name : String) (id : Nat) : (Run.valueIn? name id).Tame R := by
  refine get.bind fun m => ?_
  cases m.searchVariable name id with
  | found home => exact pure _
  | absent => exact pure _
  | endless => exact endless

@[grind .] theorem keywordIn? (name : String) (id : Nat) : (Run.keywordIn? name id).Tame R := by
  refine get.bind fun m => ite ((valueIn? name id).bind fun found => ?_) ?_
  · split
    · exact pure _
    · exact pure _
  · cases m.searchExpander name id with
    | found home => exact pure _
    | absent => exact pure _
    | endless => exact endless

@[grind .] theorem keyword? (head : Value) (s : Scope) : (Run.keyword? head s).Tame R := by
  unfold Run.keyword?
  split
  · exact get.bind fun m => ite (pure _) (keywordIn? _ _)
  · exact pure _

@[grind .] theorem defineKeyword (name : String) (k : Keyword) (id : Nat) :
    (Run.defineKeyword name k id).Tame R := by
  refine answering (.defineKeyword name k id) fun m => ?_
  unfold Run.defineKeyword
  rw [get_bind]
  split <;> exact ⟨_, _, rfl⟩

@[grind .] theorem closure? (v : Value) : (Run.closure? v).Tame R := by
  unfold Run.closure?
  split
  · exact get.bind fun _ => pure _
  · exact pure _

@[grind .] theorem nameClosure (v : Value) (name : String) : (Run.nameClosure v name).Tame R := by
  refine answering (.nameClosure v name) fun m => ?_
  unfold Run.nameClosure
  split <;> exact ⟨_, _, rfl⟩

@[grind .] theorem writeTo (p : Port) (text : String) : (Run.writeTo p text).Tame R :=
  answering (.writeTo p text) fun _ => ⟨_, _, rfl⟩

@[grind .] theorem moduleName (v : Value) : (Run.moduleName v).Tame R := by
  refine get.bind fun m => ?_
  cases m.moduleName? v with
  | some name => exact pure name
  | none => exact (described v).bind fun _ => fail _

@[grind .] theorem resolveModule (v : Value) : (Run.resolveModule v).Tame R := by
  refine get.bind fun m => ?_
  cases m.moduleFor? v with
  | some id => exact pure id
  | none => exact (moduleName v).bind fun _ => fail _

@[grind .] theorem makeModule (name : String) : (Run.makeModule name).Tame R := by
  refine answering (.makeModule name) fun m => ?_
  unfold Run.makeModule
  rw [get_bind]
  cases m.findModule? name <;> exact ⟨_, _, rfl⟩

@[grind .] theorem exportNames (id : Nat) (names : List String) :
    (Run.exportNames id names).Tame R := answering (.exportNames id names) fun _ => ⟨_, _, rfl⟩

@[grind .] theorem importModule (id other : Nat) : (Run.importModule id other).Tame R := by
  refine answering (.importModule id other) fun m => ?_
  unfold Run.importModule
  by_cases h : id = other
  · rw [if_pos h]; exact ⟨_, _, rfl⟩
  · rw [if_neg h]; exact ⟨_, _, rfl⟩

@[grind ←] theorem within (id : Nat) {x : Run α} (hx : x.Tame R) : (Run.within id x).Tame R := by
  refine fun m => ⟨hx.moves.within id m, fun h => ?_⟩
  cases hrun : x { m with current := id } with
  | ok a m' =>
    rw [within_of_ok hrun] at h
    cases h
  | error stop m' =>
    rw [within_of_error hrun] at h
    cases h
    exact (hx _).faults hrun

theorem capturing {x : Run α} (hx : x.Moves) : (Run.capturing x).Tame R := by
  refine answering (.capturing hx) fun m => ?_
  cases hrun : x m.beginCapture with
  | ok a n => exact ⟨_, _, capturing_of_ok hrun⟩
  | error stop n => exact ⟨_, _, capturing_of_error hrun⟩

/-- How a run ended is answered; that it faulted can be among the answers. -/
theorem attempt {x : Run α} (hx : x.Moves) : (Run.attempt x).Tame R := by
  refine answering (fun m => ?_) fun m => ?_
  · have hm := hx m
    unfold after at hm ⊢
    unfold Run.attempt
    cases h : x m <;> rwa [h] at hm
  · unfold Run.attempt
    split <;> exact ⟨_, _, rfl⟩

/-- A run whose refusals get a response that is tame, and that is tame where nothing is refused. -/
theorem checked {respond : Fault → Stop} {refusal? : Machine → Option Fault} {x : Run α}
    (hrespond : ∀ f f', respond f = .fault f' → R f')
    (hx : ∀ m, refusal? m = none → x.TameAt R m) : (Run.checked respond refusal? x).Tame R := by
  intro m
  cases hm : refusal? m with
  | some f =>
    refine ⟨by rw [after_of_error (checked_of_some hm)]; exact .refl m, fun h => ?_⟩
    rw [checked_of_some hm] at h
    exact hrespond f _ (by injection h)
  | none => exact .of_eq (checked_of_none hm) (hx m hm)

@[grind .] theorem connection (id : Nat) : (Run.connection id).Tame R := get.bind fun _ => pure _

@[grind .] theorem closeLog (id : Nat) : (Run.closeLog id).Tame R :=
  answering (.closeLog id) fun _ => ⟨_, _, rfl⟩

mutual

@[grind .] theorem ofDatum : ∀ d : Datum, (Run.ofDatum d).Tame R
  | .bool _ | .int _ | .char _ | .sym _ => by unfold Run.ofDatum; exact pure _
  | .real _ | .str _ => by unfold Run.ofDatum; exact newTag.bind fun _ => pure _
  | .list items => by unfold Run.ofDatum; exact (ofData items).bind fun _ => newList _
  | .vector items => by unfold Run.ofDatum; exact (ofData items).bind fun _ => newVector _
  | .improper items tail => by
    unfold Run.ofDatum
    exact (ofData items).bind fun _ => (ofDatum tail).bind fun _ => newImproper _ _
  | .object kind _ => kind.elim

theorem ofData : ∀ ds : List Datum, (Run.ofData ds).Tame R
  | [] => by unfold Run.ofData; exact pure _
  | d :: rest => by
    unfold Run.ofData
    exact (ofDatum d).bind fun _ => (ofData rest).bind fun _ => pure _

end

end Tame

namespace Moves

theorem lookup (name : String) (s : Scope) : (Run.lookup name s).Moves :=
  (Tame.lookup (R := fun _ => True) name s).moves

theorem keywordIn? (name : String) (id : Nat) : (Run.keywordIn? name id).Moves :=
  (Tame.keywordIn? (R := fun _ => True) name id).moves

theorem closure? (v : Value) : (Run.closure? v).Moves :=
  (Tame.closure? (R := fun _ => True) v).moves

theorem ofDatum (d : Datum) : (Run.ofDatum d).Moves :=
  (Tame.ofDatum (R := fun _ => True) d).moves

theorem ofData (ds : List Datum) : (Run.ofData ds).Moves :=
  (Tame.ofData (R := fun _ => True) ds).moves

end Moves

end Run

end LiveScheme
