import LiveScheme.Primitive.Call
import LiveScheme.Proofs.Machine.Becomes
import LiveScheme.Proofs.Reading.Splice
import LiveScheme.Proofs.Value.Bare
import LiveScheme.Proofs.Value.Equality
import LiveScheme.Proofs.Value.Standard
import Mathlib.Data.List.Permutation

/-!
# Chains of pairs

A chain of pairs is kept flat, and it is flattened wherever pairs are made, taken apart, appended or
read. All these places build the one tree `Node.attach`, in which elements may be put in front of a
tail one after another or all at once. Procedures build new objects, so that two of them never
answer the same one: what they answer is the same data, and `equal?` says so.
-/

namespace LiveScheme

/-- Pairs in normal form, and whatever else there is. -/
def Standard.flat : Standard := ⟨true, true, false⟩

namespace Node

variable {ι ρ : Type}

/-- A tail that has elements in front of it already takes further ones in front of these. -/
theorem attach_attach (s t : ι) (xs ys : List (Node ι ρ)) (d : Node ι ρ) :
    attach s xs (attach t ys d) = attach s (xs ++ ys) d := by
  cases d <;> simp [attach]

theorem attach_nil_list (t u : ι) (xs : List (Node ι ρ)) :
    attach t xs (list u []) = list t xs := by
  rw [attach, List.append_nil]

theorem attach_eq_improper {t : ι} {xs : List (Node ι ρ)} {d : Node ι ρ}
    (h : d.endsChain = true) : attach t xs d = improper t xs d := by
  cases d <;> first | rfl | cases h

end Node

namespace Value

/-- The same data at every part, which `equal?` finds equal. -/
structure Alike (v w : Value) : Prop where
  bare : v.bare = w.bare
  isEqual : Value.isEqual v w = true

namespace Alike

theorem refl (v : Value) : Alike v v := ⟨rfl, isEqual_refl v⟩

/-- A copy of a list holds the same elements. -/
theorem list (s t : Identity) (items : List Value) : Alike (.list s items) (.list t items) where
  bare := by rw [Node.bare_list, Node.bare_list]
  isEqual := by rw [Value.isEqual, areEqual_refl, Bool.or_true]

theorem improper (s t : Identity) (items : List Value) (tail : Value) :
    Alike (.improper s items tail) (.improper t items tail) where
  bare := by rw [Node.bare_improper, Node.bare_improper]
  isEqual := by rw [Value.isEqual, areEqual_refl, isEqual_refl, Bool.and_true, Bool.or_true]

theorem attach (s t : Identity) (items : List Value) (tail : Value) :
    Alike (Node.attach s items tail) (Node.attach t items tail) := by
  cases tail with
  | list u more => exact .list s t (items ++ more)
  | improper u more tail => exact .improper s t (items ++ more) tail
  | _ => exact .improper s t items _

end Alike

end Value

/-- On every machine the run answers a value with the property, and all that it does to the machine
is to give out identities. -/
def Run.Builds (x : Run Value) (P : Value → Prop) : Prop :=
  ∀ m, ∃ v count, x m = .ok v (m.skip count) ∧ P v

namespace Run.Builds

variable {x : Run Value} {f : Value → Run Value} {P Q : Value → Prop}

theorem pure {v : Value} (h : P v) : Builds (Pure.pure v) P := fun _ => ⟨v, 0, rfl, h⟩

theorem bind (h : Builds x P) (hf : ∀ v, P v → Builds (f v) Q) : Builds (x >>= f) Q := by
  intro m
  obtain ⟨v, j, hx, hv⟩ := h m
  obtain ⟨w, k, hw, hQ⟩ := hf v hv (m.skip j)
  refine ⟨w, j + k, ?_, hQ⟩
  rw [bind_of_ok hx, hw, Machine.skip_skip]

theorem mono (h : Builds x P) (hPQ : ∀ v, P v → Q v) : Builds x Q := by
  intro m
  obtain ⟨v, count, hx, hv⟩ := h m
  exact ⟨v, count, hx, hPQ v hv⟩

theorem newAttached {items : List Value} {tail : Value}
    (h : ∀ t, P (Node.attach t items tail)) : Builds (Run.newAttached items tail) P :=
  fun m => ⟨_, 1, rfl, h (.fresh m.nextTag)⟩

theorem newList {items : List Value} (h : ∀ t, P (.list t items)) :
    Builds (Run.newList items) P :=
  fun m => ⟨_, 1, rfl, h (.fresh m.nextTag)⟩

theorem newImproper {items : List Value} {tail : Value} (h : ∀ t, P (.improper t items tail)) :
    Builds (Run.newImproper items tail) P :=
  fun m => ⟨_, 1, rfl, h (.fresh m.nextTag)⟩

end Run.Builds

namespace Chain

variable (g : Engine) (s : Scope)

/-- The value that the elements in front of the tail are, up to its own identity. -/
def IsAttached (xs : List Value) (d v : Value) : Prop := ∃ t, v = Node.attach t xs d

theorem IsAttached.alike {xs : List Value} {d v w : Value} (hv : IsAttached xs d v)
    (hw : IsAttached xs d w) : Value.Alike v w := by
  obtain ⟨s, rfl⟩ := hv
  obtain ⟨t, rfl⟩ := hw
  exact .attach s t xs d

theorem cons_builds (a d : Value) :
    Run.Builds (Builtin.call g s [a, d] .cons) (IsAttached [a] d) :=
  Run.Builds.newAttached fun t => ⟨t, rfl⟩

/-- The first element of a pair is in front. -/
theorem car_attach (t : Identity) (a d : Value) :
    Run.Builds (Builtin.call g s [Node.attach t [a] d] .car) (· = a) := by
  cases d <;> exact .pure rfl

/-- What follows the first element of a pair is the tail again, unless an improper list without
elements was the tail. -/
theorem cdr_attach {d : Value} (hd : Meets .flat d) (t : Identity) (a : Value) :
    Run.Builds (Builtin.call g s [Node.attach t [a] d] .cdr) (Value.Alike · d) := by
  cases d with
  | list u items => exact Run.Builds.newList fun t => .list t u items
  | improper u items tail =>
    obtain ⟨hflat, -, -⟩ := meets_improper.mp hd
    have hne : items ≠ [] := (hflat.resolve_left (by decide)).1
    obtain ⟨x, rest, rfl⟩ := List.exists_cons_of_ne_nil hne
    exact Run.Builds.newImproper fun t => .improper t u (x :: rest) tail
  | _ => exact .pure (.refl _)

/-- A pair is taken apart into an element and a tail that make it up again. -/
theorem car_cdr_builds {p : Value} (hp : Meets .flat p) (hpair : Primitive.isPair p = true) :
    ∃ a, Run.Builds (Builtin.call g s [p] .car) (· = a) ∧
      Run.Builds (Builtin.call g s [p] .cdr) fun d => ∀ t, Value.Alike (Node.attach t [a] d) p := by
  cases p with
  | list u items =>
    cases items with
    | nil => cases hpair
    | cons a rest => exact ⟨a, .pure rfl, .newList fun _ t => .list t u (a :: rest)⟩
  | improper u items tail =>
    obtain ⟨hflat, -, -⟩ := meets_improper.mp hp
    obtain ⟨hne, hend⟩ := hflat.resolve_left (by decide)
    obtain ⟨a, rest, rfl⟩ := List.exists_cons_of_ne_nil hne
    refine ⟨a, .pure rfl, ?_⟩
    cases rest with
    | nil =>
      refine .pure fun t => ?_
      rw [Node.attach_eq_improper hend]
      exact .improper t u [a] tail
    | cons b rest => exact .newImproper fun _ t => .improper t u (a :: b :: rest) tail
  | _ => cases hpair

/-- One element after another, the last one first. -/
theorem foldr_cons_builds {xs : List Value} (hne : xs ≠ []) (d : Value) :
    Run.Builds (xs.foldrM (fun x rest => Builtin.call g s [x, rest] .cons) d)
      (IsAttached xs d) := by
  induction xs with
  | nil => exact absurd rfl hne
  | cons x xs ih =>
    rw [List.foldrM_cons]
    by_cases hlast : xs = []
    · subst hlast
      exact cons_builds g s x d
    · refine (ih hlast).bind fun rest hrest => ?_
      obtain ⟨u, rfl⟩ := hrest
      refine (cons_builds g s x _).mono fun v hv => ?_
      obtain ⟨t, rfl⟩ := hv
      exact ⟨t, Node.attach_attach t u [x] xs d⟩

/-- The elements are counted before the tail is looked at, so that without elements a tail would
come back as it is. -/
theorem append_builds {xs : List Value} (hne : xs ≠ []) (t : Identity) (d : Value) :
    Run.Builds (Builtin.call g s [.list t xs, d] .append) (IsAttached xs d) := by
  have hempty : ([] ++ xs).isEmpty = false := by simpa using hne
  have htail : Run.Builds (Primitive.appendTo ([] ++ xs) [d]) (IsAttached xs d) := by
    have hnew : Run.Builds (Run.newAttached ([] ++ xs) d) (IsAttached xs d) :=
      .newAttached fun t => ⟨t, rfl⟩
    cases d with
    | list | improper => exact hnew
    | _ =>
      rw [Primitive.appendTo, hempty]
      · exact hnew
      all_goals (intros; contradiction)
  exact htail

/-- The ways to put elements in front of a tail. -/
def makers (t : Identity) (xs : List Value) (d : Value) : List (Run Value) :=
  [Run.newAttached xs d, Builtin.call g s [.list t xs, d] .append,
    xs.foldrM (fun x rest => Builtin.call g s [x, rest] .cons) d]

theorem builds_of_mem_makers {t : Identity} {xs : List Value} {d : Value} (hne : xs ≠ [])
    {x : Run Value} (hx : x ∈ makers g s t xs d) : Run.Builds x (IsAttached xs d) := by
  simp only [makers, List.mem_cons, List.not_mem_nil, or_false] at hx
  obtain rfl | rfl | rfl := hx
  · exact .newAttached fun t => ⟨t, rfl⟩
  · exact append_builds g s hne t d
  · exact foldr_cons_builds g s hne d

end Chain

namespace Datum

/-- The tokens spell the elements and the tail of a chain after the bracket that opens it: by
elements, by a tail after a dot, and by a chain of its own after a dot. The flag tells whether an
element has come. -/
inductive SpellsChain : Bool → List Token → List Datum → Datum → Prop
  | close {started : Bool} {c : Token} : c.kind = .close →
    SpellsChain started [c] [] (Datum.list [])
  | item {started : Bool} {ts us : List Token} {x : Datum} {xs : List Datum} {d : Datum} :
    Reading.start.run ts = .ok ⟨[x], []⟩ → SpellsChain true us xs d →
    SpellsChain started (ts ++ us) (x :: xs) d
  | tail {ts : List Token} {c : Token} {d : Datum} : Reading.start.run ts = .ok ⟨[d], []⟩ →
    c.kind = .close → SpellsChain true (Token.dot :: (ts ++ [c])) [] d
  | nested {us : List Token} {o c : Token} {xs : List Datum} {d : Datum} : o.kind = .listOpen →
    SpellsChain false us xs d → c.kind = .close →
    SpellsChain true (Token.dot :: o :: (us ++ [c])) xs d

namespace Reading

theorem take_listOpen {r : Reading} {o : Token} (h : o.kind = .listOpen) :
    take r o = .ok ⟨r.done, .list [] :: r.stack⟩ := by
  rw [take, h]

theorem take_close {r : Reading} {c : Token} (h : c.kind = .close) : take r c = close r c.text := by
  rw [take, h]

/-- A closing bracket after the tail hands over the chain. -/
theorem run_sealed_close {done acc : List Datum} {stack : List Open} {d : Datum} {c : Token}
    (h : c.kind = .close) :
    run ⟨done, .sealed acc d :: stack⟩ [c] =
      .ok (deliver done (Node.attach () acc.reverse d) stack) := by
  have hstep : step ⟨done, .sealed acc d :: stack⟩ c =
      close ⟨done, .sealed acc d :: stack⟩ c.text := if_pos h
  rw [run, hstep]
  rfl

theorem step_dot {done acc : List Datum} {stack : List Open} (h : acc ≠ []) :
    step ⟨done, .list acc :: stack⟩ Token.dot = .ok ⟨done, .dotted acc :: stack⟩ := by
  obtain ⟨x, rest, rfl⟩ := List.exists_cons_of_ne_nil h
  rfl

/-- However a chain is spelt, it is the elements so far and its own in front of its tail. -/
theorem run_spells {started : Bool} {us : List Token} {xs : List Datum} {d : Datum}
    (h : SpellsChain started us xs d) {done acc : List Datum} {stack : List Open}
    (hacc : started = true → acc ≠ []) :
    run ⟨done, .list acc :: stack⟩ us =
      .ok (deliver done (Node.attach () (acc.reverse ++ xs) d) stack) := by
  induction h generalizing done acc stack with
  | close hclose =>
    rw [run_cons_of_takes (by exact trivial), take_close hclose, List.append_nil,
      Node.attach_nil_list]
    rfl
  | @item started ts us x xs d hx _ ih =>
    have hitem : run ⟨done, .list acc :: stack⟩ ts = .ok ⟨done, .list (x :: acc) :: stack⟩ :=
      delivers_of_run hx done (.list acc :: stack) trivial
    rw [run_append, hitem]
    refine (ih fun _ => List.cons_ne_nil x acc).trans ?_
    rw [List.reverse_cons, List.append_assoc, List.singleton_append]
  | @tail ts c d hd hclose =>
    have htail : run ⟨done, .dotted acc :: stack⟩ ts = .ok ⟨done, .sealed acc d :: stack⟩ :=
      delivers_of_run hd done (.dotted acc :: stack) trivial
    rw [run_cons_of_step (step_dot (hacc rfl)), run_append, htail, List.append_nil]
    exact run_sealed_close hclose
  | @nested us o c xs d hopen _ hclose ih =>
    -- The inner chain is handed over as a tail, and its elements join those in front of it.
    have hinner : run ⟨done, .list [] :: .dotted acc :: stack⟩ us =
        .ok ⟨done, .sealed acc (Node.attach () xs d) :: stack⟩ := ih nofun
    rw [run_cons_of_step (step_dot (hacc rfl)), run_cons_of_takes (by exact trivial),
      take_listOpen hopen]
    refine (run_append _ us [c]).trans ?_
    rw [hinner]
    refine (run_sealed_close hclose).trans ?_
    rw [Node.attach_attach]

end Reading

/-- A text of one chain reads as its elements in front of its tail. -/
theorem readAll_of_spells {text : String} {o : Token} {us : List Token} {xs : List Datum}
    {d : Datum} (hopen : o.kind = .listOpen) (h : SpellsChain false us xs d)
    (htext : Lexed.ofText text.toList = ⟨o :: us, none⟩) :
    readAll text = .ok [Node.attach () xs d] := by
  have hrun : Reading.start.run (Lexed.ofText text.toList).tokens =
      .ok ⟨[Node.attach () xs d], []⟩ := by
    rw [htext, Reading.run_cons_of_takes (by exact trivial), Reading.take_listOpen hopen]
    exact Reading.run_spells h nofun
  rw [readAll_of_run hrun, htext]
  rfl

end Datum

namespace Chain

open Datum in
/-- Pairs are what they are made of: a pair has its element in front and a copy of its tail behind
it, and what a pair is taken apart into makes it up again. Elements in front of a tail are the same
chain when they are joined to it at once, appended to it or put there one after another; and a text
of the chain reads as this chain, whatever it spells by dots and whatever by elements. -/
theorem pairs_flat (g : Engine) (s : Scope) :
    (∀ a d : Value, Meets .flat d →
      Run.Builds (Builtin.call g s [a, d] .cons) fun p =>
        Run.Builds (Builtin.call g s [p] .car) (· = a) ∧
          Run.Builds (Builtin.call g s [p] .cdr) (Value.Alike · d)) ∧
    (∀ p : Value, Meets .flat p → Primitive.isPair p = true →
      Run.Builds (do
        let a ← Builtin.call g s [p] .car
        let d ← Builtin.call g s [p] .cdr
        Builtin.call g s [a, d] .cons) (Value.Alike · p)) ∧
    (∀ (t : Identity) (xs : List Value) (d : Value), xs ≠ [] →
      ∀ x ∈ makers g s t xs d, ∀ y ∈ makers g s t xs d,
        Run.Builds x fun v => Run.Builds y (Value.Alike v)) ∧
    (∀ (text : String) (o : Token) (us : List Token) (xs : List Datum) (d : Datum),
      o.kind = .listOpen → SpellsChain false us xs d →
      Lexed.ofText text.toList = ⟨o :: us, none⟩ →
        readAll text = .ok [Node.attach () xs d]) := by
  refine ⟨fun a d hd => ?_, fun p hp hpair => ?_, fun t xs d hne x hx y hy => ?_,
    fun text o us xs d hopen h htext => readAll_of_spells hopen h htext⟩
  · refine (cons_builds g s a d).mono fun p hp => ?_
    obtain ⟨t, rfl⟩ := hp
    exact ⟨car_attach g s t a d, cdr_attach g s hd t a⟩
  · obtain ⟨a, hcar, hcdr⟩ := car_cdr_builds g s hp hpair
    refine hcar.bind fun b hb => ?_
    subst hb
    refine hcdr.bind fun d hd => ?_
    refine (cons_builds g s b d).mono fun q hq => ?_
    obtain ⟨t, rfl⟩ := hq
    exact hd t
  · refine (builds_of_mem_makers g s hne hx).mono fun v hv => ?_
    exact (builds_of_mem_makers g s hne hy).mono fun w hw => hv.alike hw

/-- Pairs around an improper list, and a chain that is spelt with two dots more than it needs. -/
theorem pairs_flat_sample :
    let g := Engine.ofAllowance 0
    let s := Scope.ofModule Machine.defaultId
    let d : Value := .improper .symbolName [.int 2, .int 3] (.int 4)
    (Run.Builds (Builtin.call g s [.int 1, d] .cons) fun p =>
      Run.Builds (Builtin.call g s [p] .car) (· = .int 1) ∧
        Run.Builds (Builtin.call g s [p] .cdr) (Value.Alike · d)) ∧
    Run.Builds (do
      let a ← Builtin.call g s [d] .car
      let rest ← Builtin.call g s [d] .cdr
      Builtin.call g s [a, rest] .cons) (Value.Alike · d) ∧
    (∀ x ∈ makers g s .versionText [.int 1] d, ∀ y ∈ makers g s .versionText [.int 1] d,
      Run.Builds x fun v => Run.Builds y (Value.Alike v)) ∧
    Datum.readAll "(1 . (2 3 . (4 . 5)))" =
      .ok [.improper [.int 1, .int 2, .int 3, .int 4] (.int 5)] := by
  intro g s d
  have hflat : Meets .flat d := by
    rw [meets_improper]
    exact ⟨.inr ⟨List.cons_ne_nil _ _, rfl⟩, by simp, meets_int 4⟩
  have hint : ∀ n : Int, Datum.Reading.start.run [Token.ofInt n] = .ok ⟨[.int n], []⟩ :=
    fun n => Datum.Reading.delivers_int n [] [] trivial
  have hinner : Datum.SpellsChain false
      ([Token.ofInt 2] ++ ([Token.ofInt 3] ++ Token.dot :: Token.listOpen ::
        ([Token.ofInt 4] ++ Token.dot :: ([Token.ofInt 5] ++ [Token.close]) ++ [Token.close])))
      [.int 2, .int 3, .int 4] (.int 5) :=
    .item (hint 2) (.item (hint 3) (.nested rfl (.item (hint 4) (.tail (hint 5) rfl)) rfl))
  obtain ⟨hcons, hparts, hmakers, hread⟩ := pairs_flat g s
  refine ⟨hcons (.int 1) d hflat, hparts d hflat rfl,
    hmakers .versionText [.int 1] d (List.cons_ne_nil _ _), ?_⟩
  exact hread _ Token.listOpen _ _ _ rfl (.item (hint 1) (.nested rfl hinner rfl)) (by cbv)

end Chain

end LiveScheme
