import LiveScheme.Evaluator.Basic
import LiveScheme.Proofs.Machine.Search
import LiveScheme.Service.Signature
import Mathlib.Data.Set.List

/-!
# Parameters and arguments

A parameter list is a name, a sequence of parameters, or parameters with a rest behind a dot. The
parameters of a definition head are those behind its first element. A signature announces how many
arguments a procedure takes, and a call with that many binds them in a new frame, unless a parameter
is no name: such a parameter is only refused by the call. A repeated name is bound by its last
parameter, and the rest parameter is bound after all others.
-/

namespace LiveScheme

variable {m n : Machine}

/-- The parameters that a value lists. -/
inductive Value.Lists : Value → Formals → Prop
  | name (rest : String) : Lists (.sym rest) ⟨[], some rest⟩
  | list (t : Identity) (items : List Value) : Lists (.list t items) ⟨items, none⟩
  | vector (t : Identity) (items : List Value) : Lists (.vector t items) ⟨items, none⟩
  | improper (t : Identity) (items : List Value) (rest : String) :
    Lists (.improper t items (.sym rest)) ⟨items, some rest⟩

theorem Formals.ofValue_of_lists {v : Value} {formals : Formals} (h : v.Lists formals) :
    ofValue v = pure formals := by
  cases h <;> rfl

theorem Formals.lists_of_ofValue {v : Value} {formals : Formals} (h : ofValue v m = .ok formals n) :
    v.Lists formals := by
  unfold ofValue at h
  split at h
  case h_3 | h_6 =>
    obtain ⟨text, k, -, h⟩ := exists_of_bind_ok h
    cases h
  all_goals
    cases h
    constructor

/-- What is behind the name of a definition head lists the parameters of the head. -/
theorem Form.lists_of_splitHead {spec head params : Value} {formals : Formals}
    (h : splitHead spec m = .ok (head, params) n) (hspec : spec.Lists formals) :
    ∃ required, formals.required = head :: required ∧ params.Lists ⟨required, formals.rest⟩ := by
  cases hspec with
  | name rest => cases h
  | list t items | vector t items =>
    cases items with
    | nil => cases h
    | cons first items =>
      obtain ⟨params, k, hparams, h⟩ := exists_of_bind_ok h
      cases hparams
      cases h
      exact ⟨items, rfl, .list _ items⟩
  | improper t items rest =>
    rcases items with _ | ⟨first, _ | ⟨second, items⟩⟩
    · cases h
    · cases h
      exact ⟨[], rfl, .name rest⟩
    · obtain ⟨params, k, hparams, h⟩ := exists_of_bind_ok h
      cases hparams
      cases h
      exact ⟨second :: items, rfl, .improper _ _ rest⟩

/-- The numbers of arguments that a signature announces. -/
def Signature.Announces (sig : Signature) (count : Nat) : Prop :=
  if sig.hasRest then sig.required.length ≤ count else count = sig.required.length

instance (sig : Signature) : DecidablePred sig.Announces := fun count => by
  unfold Signature.Announces
  infer_instance

namespace Table

variable {α : Type}

/-- Puts the names with their entries, one after the other. -/
def putAll : Table α → List String → List α → Table α
  | t, name :: names, a :: entries => putAll (t.put name a) names entries
  | t, _, _ => t

theorem get?_putAll_of_not_mem {name : String} {names : List String} (h : name ∉ names)
    (t : Table α) (entries : List α) : (t.putAll names entries).get? name = t.get? name := by
  induction names generalizing t entries with
  | nil => rfl
  | cons first names ih =>
    rw [List.mem_cons, not_or] at h
    obtain ⟨hfirst, hnames⟩ := h
    cases entries with
    | nil => rfl
    | cons a entries =>
      rw [putAll, ih hnames, get?_put_of_ne t a hfirst]

/-- A name has the entry of its last place. -/
theorem get?_putAll_of_last {name : String} {names : List String} {i : Nat}
    (hname : names[i]? = some name) (hlast : ∀ j, i < j → names[j]? ≠ some name) (t : Table α)
    {entries : List α} {a : α} (ha : entries[i]? = some a) :
    (t.putAll names entries).get? name = some a := by
  induction names generalizing i t entries with
  | nil => cases hname
  | cons first names ih =>
    cases entries with
    | nil => cases ha
    | cons b entries =>
      cases i with
      | zero =>
        cases hname
        cases ha
        have hnot : name ∉ names := fun hmem => by
          obtain ⟨j, hj⟩ := List.mem_iff_getElem?.mp hmem
          exact hlast (j + 1) (Nat.succ_pos j) hj
        rw [putAll, get?_putAll_of_not_mem hnot, get?_put_self]
      | succ i => exact ih hname (fun j hj => hlast (j + 1) (Nat.succ_lt_succ hj)) _ ha

end Table

/-- A name of the innermost frame is read there. -/
theorem Run.lookup_inner {frame : Nat} {name : String} {v : Value}
    (h : (m.frame frame).get? name = some v) (s : Scope) :
    lookup name (s.inner frame) m = .ok v m := by
  have hhas : (m.frame frame).has name = true := by rw [Table.has, h, Option.isSome_some]
  have hfind : m.find name (s.inner frame) = .frame frame :=
    Machine.find_eq_frame_iff.mpr (List.find?_cons_of_pos hhas)
  unfold lookup
  rw [Run.get_bind, hfind]
  change EStateM.Result.ok (((m.frame frame).get? name).getD .void) m = _
  rw [h, Option.getD_some]

namespace Closure

variable {names : List String} {args : List Value}

theorem bindRequired_names (hcount : names.length ≤ args.length) (table : Table Value) :
    bindRequired table (names.map .sym) args = pure (table.putAll names args) := by
  induction names generalizing args table with
  | nil => cases args <;> rfl
  | cons name names ih =>
    cases args with
    | nil => cases Nat.not_succ_le_zero _ hcount
    | cons v args => exact ih (Nat.le_of_succ_le_succ hcount) _

/-- The first parameter that is no name ends the binding. -/
theorem names_of_bindRequired {formals : List Value} {table table' : Table Value}
    (hcount : formals.length ≤ args.length)
    (h : bindRequired table formals args m = .ok table' n) :
    ∃ names : List String, formals = names.map .sym := by
  induction formals generalizing args table with
  | nil => exact ⟨[], rfl⟩
  | cons formal formals ih =>
    cases args with
    | nil => cases Nat.not_succ_le_zero _ hcount
    | cons v args =>
      cases formal with
      | sym name =>
        obtain ⟨names, rfl⟩ := ih (Nat.le_of_succ_le_succ hcount) h
        exact ⟨name :: names, rfl⟩
      | _ =>
        obtain ⟨text, k, -, h⟩ := exists_of_bind_ok h
        cases h

/-- The frame of a call with the arguments on the machine. -/
def argumentFrame (c : Closure) (names : List String) (args : List Value) (m : Machine) :
    Table Value :=
  let table := Table.putAll [] names args
  match c.formals.rest with
  | none => table
  | some rest => table.put rest (.list (.fresh m.nextTag) (args.drop names.length))

theorem announces_iff (c : Closure) (name home : String) (args : List Value) :
    (Signature.ofFormals name c.formals home).Announces args.length ↔
      (args.length < c.formals.required.length ||
        (c.formals.rest.isNone && c.formals.required.length < args.length)) = false := by
  unfold Signature.Announces Signature.ofFormals
  cases c.formals.rest with
  | none => simp; omega
  | some rest => simp

variable {c : Closure} {name home : String}

/-- A call with another number of arguments than announced binds nothing. -/
theorem bind_of_not_announces
    (h : ¬ (Signature.ofFormals name c.formals home).Announces args.length) (m : Machine) :
    c.bind args m = .error (.error (.callArity c.callName c.formals.required.length
      c.formals.rest.isSome args.length)) m := by
  rw [announces_iff, Bool.not_eq_false] at h
  unfold Closure.bind
  rw [if_pos h]
  rfl

theorem bind_of_announces (h : (Signature.ofFormals name c.formals home).Announces args.length) :
    c.bind args = do
      let table ← bindRequired [] c.formals.required args
      let table ← match c.formals.rest with
        | none => pure table
        | some name => do
          let rest ← Run.newList (args.drop c.formals.required.length)
          pure (table.put name rest)
      return c.scope.inner (← Run.newFrame table) := by
  rw [announces_iff] at h
  unfold Closure.bind
  refine (if_neg (Bool.eq_false_iff.mp h)).trans ?_
  rfl

theorem length_le_of_announces
    (h : (Signature.ofFormals name c.formals home).Announces args.length) :
    c.formals.required.length ≤ args.length := by
  rw [announces_iff, Bool.or_eq_false_iff, decide_eq_false_iff_not] at h
  exact Nat.not_lt.mp h.1

theorem bind_of_names (hrequired : c.formals.required = names.map .sym)
    (h : (Signature.ofFormals name c.formals home).Announces args.length) (m : Machine) :
    ∃ tag, c.bind args m = .ok (c.scope.inner m.frames.size)
      { m with nextTag := tag, frames := m.frames.push (c.argumentFrame names args m) } := by
  have hcount := length_le_of_announces h
  rw [hrequired, List.length_map] at hcount
  rw [bind_of_announces h, hrequired, bindRequired_names hcount, pure_bind, List.length_map]
  unfold argumentFrame
  cases c.formals.rest with
  | none => exact ⟨m.nextTag, rfl⟩
  | some rest => exact ⟨m.nextTag + 1, rfl⟩

theorem exists_names_iff (required : List Value) :
    (∃ names : List String, required = names.map .sym) ↔ ∀ v ∈ required, ∃ x, v = .sym x := by
  constructor
  · rintro ⟨names, rfl⟩ v hv
    obtain ⟨x, -, rfl⟩ := List.mem_map.mp hv
    exact ⟨x, rfl⟩
  · intro h
    have hrange : required ∈ Set.range (List.map (Node.sym : String → Value)) := by
      rw [Set.range_list_map]
      intro v hv
      obtain ⟨x, rfl⟩ := h v hv
      exact ⟨x, rfl⟩
    obtain ⟨names, hnames⟩ := hrange
    exact ⟨names, hnames.symm⟩

theorem announces_of_bind {s : Scope} (h : c.bind args m = .ok s n) (name home : String) :
    (Signature.ofFormals name c.formals home).Announces args.length ∧
      ∃ names : List String, c.formals.required = names.map .sym := by
  by_cases hannounces : (Signature.ofFormals name c.formals home).Announces args.length
  · rw [bind_of_announces hannounces] at h
    obtain ⟨table, k, hrequired, -⟩ := exists_of_bind_ok h
    exact ⟨hannounces, names_of_bindRequired (length_le_of_announces hannounces) hrequired⟩
  · rw [bind_of_not_announces hannounces] at h
    cases h

/-- A call that is accepted reads the names of its frame there. -/
theorem lookup_of_bind {s : Scope} (h : c.bind args m = .ok s n)
    (hrequired : c.formals.required = names.map .sym) {x : String} {v : Value}
    (hv : (c.argumentFrame names args m).get? x = some v) : Run.lookup x s n = .ok v n := by
  obtain ⟨tag, hbind⟩ := bind_of_names hrequired (announces_of_bind h "" "").1 m
  rw [hbind] at h
  cases h
  refine Run.lookup_inner ?_ _
  rw [Machine.frame, Array.getD_eq_getD_getElem?, Array.getElem?_push_size, Option.getD_some, hv]

/-- A parameter reads the argument at its last place, unless the rest parameter has its name. -/
theorem get?_argumentFrame {i : Nat} {x : String} {v : Value} (hx : names[i]? = some x)
    (hlast : ∀ j, i < j → names[j]? ≠ some x) (hrest : c.formals.rest ≠ some x)
    (hv : args[i]? = some v) (m : Machine) : (c.argumentFrame names args m).get? x = some v := by
  have htable := Table.get?_putAll_of_last hx hlast [] hv
  unfold argumentFrame
  cases hcase : c.formals.rest with
  | none => exact htable
  | some rest =>
    have hne : x ≠ rest := fun heq => hrest (hcase.trans (congrArg some heq.symm))
    exact (Table.get?_put_of_ne _ _ hne).trans htable

theorem get?_argumentFrame_rest {x : String} (hrest : c.formals.rest = some x)
    (names : List String) (args : List Value) (m : Machine) :
    (c.argumentFrame names args m).get? x =
      some (.list (.fresh m.nextTag) (args.drop names.length)) := by
  unfold argumentFrame
  rw [hrest]
  exact Table.get?_put_self _ _ _

theorem make_of_lists {v : Value} {formals : Formals} (h : v.Lists formals) (forms : List Value)
    (s : Scope) (own : Option String) (m : Machine) :
    ∃ tag body, make v forms s own m = .ok (.closure m.closures.size)
      { m with
        nextTag := tag
        closures := m.closures.push ⟨own, formals, body, s, (splitDoc forms).1⟩ } := by
  unfold make
  rw [Formals.ofValue_of_lists h]
  generalize splitDoc forms = split
  obtain ⟨doc, forms⟩ := split
  rcases forms with _ | ⟨form, _ | ⟨second, rest⟩⟩
  all_goals exact ⟨_, _, rfl⟩

/-- A procedure is made with the parameters that its parameter list lists. -/
theorem lists_iff_make (v : Value) (formals : Formals) (forms : List Value) (s : Scope)
    (own : Option String) (m : Machine) : v.Lists formals ↔
      ∃ id n c, make v forms s own m = .ok (.closure id) n ∧ n.closures[id]? = some c ∧
        c.formals = formals := by
  constructor
  · intro h
    obtain ⟨tag, body, hmake⟩ := make_of_lists h forms s own m
    exact ⟨_, _, _, hmake, Array.getElem?_push_size, rfl⟩
  · rintro ⟨id, n, c, hmake, hc, rfl⟩
    obtain ⟨formals, k, hformals, -⟩ := exists_of_bind_ok hmake
    have hlists := Formals.lists_of_ofValue hformals
    obtain ⟨tag, body, hmake'⟩ := make_of_lists hlists forms s own m
    rw [hmake'] at hmake
    cases hmake
    rw [Array.getElem?_push_size] at hc
    cases hc
    exact hlists

/-- A procedure has the parameters of its parameter list, in whichever of the forms it is written,
and for a definition head these are the ones behind the name. It accepts as many arguments as its
signature announces, whatever they are, as long as its required parameters are names. Each of them
then reads its argument, and the rest parameter reads a new list of the arguments left over. -/
theorem bind_iff_announces :
    (∀ (v : Value) (formals : Formals) (forms : List Value) (s : Scope) (own : Option String)
      (m : Machine), v.Lists formals ↔ ∃ id n c, make v forms s own m = .ok (.closure id) n ∧
        n.closures[id]? = some c ∧ c.formals = formals) ∧
    (∀ (spec head params : Value) (formals : Formals) (m n : Machine),
      Form.splitHead spec m = .ok (head, params) n → spec.Lists formals →
        ∃ required, formals.required = head :: required ∧
          params.Lists ⟨required, formals.rest⟩) ∧
    ∀ (c : Closure) (name home : String) (args : List Value) (m : Machine),
      let sig := Signature.ofFormals name c.formals home
      ((∃ s n, c.bind args m = .ok s n) ↔
        sig.Announces args.length ∧ ∀ v ∈ sig.required, ∃ x, v = .sym x) ∧
      ∀ s n, c.bind args m = .ok s n →
        (∀ (i : Nat) (x : String), sig.required[i]? = some (Node.sym x) →
          (∀ j, i < j → sig.required[j]? ≠ some (Node.sym x)) → c.formals.rest ≠ some x →
          ∃ v, args[i]? = some v ∧ Run.lookup x s n = .ok v n) ∧
        ∀ x, c.formals.rest = some x → Run.lookup x s n =
          .ok (.list (.fresh m.nextTag) (args.drop sig.required.length)) n := by
  refine ⟨lists_iff_make, fun _ _ _ _ _ _ => Form.lists_of_splitHead, ?_⟩
  intro c name home args m sig
  refine ⟨⟨?_, ?_⟩, fun s n h => ?_⟩
  · rintro ⟨s, n, h⟩
    obtain ⟨hcount, hnames⟩ := announces_of_bind h name home
    exact ⟨hcount, (exists_names_iff _).mp hnames⟩
  · rintro ⟨hcount, hnames⟩
    obtain ⟨names, hrequired⟩ := (exists_names_iff _).mpr hnames
    obtain ⟨tag, hbind⟩ := bind_of_names hrequired hcount m
    exact ⟨_, _, hbind⟩
  · obtain ⟨hcount, names, hrequired⟩ := announces_of_bind h name home
    have hsig : sig.required = names.map .sym := hrequired
    have hlength := length_le_of_announces hcount
    rw [hsig]
    refine ⟨fun i x hx hlast hrest => ?_, fun x hrest => ?_⟩
    · have hnames : ∀ j : Nat, (names.map (Node.sym : String → Value))[j]? = some (Node.sym x) ↔
          names[j]? = some x := fun j => by
        rw [List.getElem?_map, Option.map_eq_some_iff]
        simp
      have hx' := (hnames i).mp hx
      have hi : i < args.length := by
        rw [hrequired, List.length_map] at hlength
        exact (List.getElem?_eq_some_iff.mp hx').1.trans_le hlength
      have hv := List.getElem?_eq_getElem hi
      have hlast' : ∀ j, i < j → names[j]? ≠ some x := fun j hj hj' => hlast j hj ((hnames j).mpr hj')
      exact ⟨_, hv, lookup_of_bind h hrequired (get?_argumentFrame hx' hlast' hrest hv m)⟩
    · rw [List.length_map]
      exact lookup_of_bind h hrequired (get?_argumentFrame_rest hrest names args m)

/-- A parameter with the name of the rest parameter reads the rest. -/
theorem bind_iff_announces_repeated :
    (Signature.ofFormals "f" ⟨[.sym "a", .sym "b", .sym "a"], some "b"⟩ "stklos").Announces 4 ∧
    ∃ s n, bind ⟨none, ⟨[.sym "a", .sym "b", .sym "a"], some "b"⟩, .sym "a", .ofModule 0, ""⟩
        [.int 1, .int 2, .int 3, .int 4] (.initial "2.10" true .empty) = .ok s n ∧
      Run.lookup "a" s n = .ok (.int 3) n ∧ Run.lookup "b" s n = .ok (.list (.fresh 0) [.int 4]) n := by
  let c : Closure :=
    ⟨none, ⟨[.sym "a", .sym "b", .sym "a"], some "b"⟩, .sym "a", .ofModule 0, ""⟩
  let m := Machine.initial "2.10" true .empty
  have hcall := bind_iff_announces.2.2 c "f" "stklos" [.int 1, .int 2, .int 3, .int 4] m
  have hannounces :
      (Signature.ofFormals "f" c.formals "stklos").Announces [1, 2, 3, 4].length := by decide
  obtain ⟨s, n, h⟩ := hcall.1.mpr ⟨hannounces, by simp [c, Signature.ofFormals]⟩
  have hlast : ∀ j : Nat, 2 < j → c.formals.required[j]? ≠ some (Node.sym "a") := fun j hj => by
    rw [List.getElem?_eq_none (show c.formals.required.length ≤ j from hj)]
    exact fun h => by cases h
  obtain ⟨v, hv, ha⟩ := (hcall.2 s n h).1 2 "a" rfl hlast (by decide)
  cases hv
  exact ⟨hannounces, s, n, h, ha, (hcall.2 s n h).2 "b" rfl⟩

/-- A number in the place of a parameter lets an announced call fail, and a parameter with the name
of the rest parameter does not read its argument. -/
theorem bind_of_number_or_repeated_rest :
    (∃ (c : Closure) (n : Machine),
      (Engine.ofAllowance 3).eval
        (.list .symbolName [.sym "lambda", .list .symbolName [.int 1], .int 2])
        (.ofModule Machine.defaultId) (.initial "2.10" true .empty) = .ok (.closure 0) n ∧
      n.closures[0]? = some c ∧ (Signature.ofFormals "f" c.formals "stklos").Announces 1 ∧
      c.bind [.int 5] n = .error (.error (.cannotDefine "1")) n) ∧
    ∃ (s : Scope) (n : Machine),
      bind ⟨none, ⟨[.sym "a"], some "a"⟩, .sym "a", .ofModule 0, ""⟩ [.int 1, .int 2]
        (.initial "2.10" true .empty) = .ok s n ∧
      Run.lookup "a" s n = .ok (.list (.fresh 0) [.int 2]) n :=
  ⟨⟨_, _, rfl, rfl, by decide, rfl⟩, _, _, rfl, rfl⟩

end Closure
end LiveScheme
