import LiveScheme.Proofs.Machine.Becomes
import LiveScheme.Proofs.Reading.RoundTrip
import LiveScheme.Value.Equality
import Mathlib.Data.List.Forall2

/-!
# Equality of data

The compound parts of values are objects with identities, and an identity belongs to one object.
Among such values `equal?` looks at identities first and at the parts only when these differ, which
makes no difference: it finds two values equal exactly when they represent the same datum. Written
data can be told apart in the same way, since reading undoes writing.
-/

namespace LiveScheme.Value

theorem isEqual_refl (v : Value) : isEqual v v = true := by
  cases v <;> simp [isEqual, isEqv]

theorem areEqual_refl (vs : List Value) : areEqual vs vs = true := by
  induction vs with
  | nil => rfl
  | cons v vs ih => rw [areEqual, isEqual_refl, ih, Bool.and_self]

theorem isEqual_of_isEqv {a b : Value} (h : isEqv a b = true) : isEqual a b = true := by
  cases a with
  | list | vector | improper =>
    cases b with
    | list | vector | improper => simp only [isEqual, h, Bool.true_or]
    | _ => cases h
  | str =>
    cases b with
    | str => exact (Bool.and_eq_true_iff.mp h).1
    | _ => cases h
  | _ => cases b <;> exact h

/-- The value is the datum, with the objects that its identities belong to as its compound parts. -/
inductive Represents (objects : Identity → Value) : Datum → Value → Prop
  | bool (b : Bool) : Represents objects (.bool b) (.bool b)
  | int (n : Int) : Represents objects (.int n) (.int n)
  | real (t : Identity) (x : Float) : Represents objects (.real x) (.real t x)
  | str (t : Identity) (text : String) : Represents objects (.str text) (.str t text)
  | char (c : Char) : Represents objects (.char c) (.char c)
  | sym (name : String) : Represents objects (.sym name) (.sym name)
  | list {t : Identity} {ds : List Datum} {vs : List Value} : objects t = .list t vs →
    List.Forall₂ (Represents objects) ds vs → Represents objects (.list ds) (.list t vs)
  | vector {t : Identity} {ds : List Datum} {vs : List Value} : objects t = .vector t vs →
    List.Forall₂ (Represents objects) ds vs → Represents objects (.vector ds) (.vector t vs)
  | improper {t : Identity} {ds : List Datum} {vs : List Value} {d : Datum} {v : Value} :
    objects t = .improper t vs v → List.Forall₂ (Represents objects) ds vs →
    Represents objects d v → Represents objects (.improper ds d) (.improper t vs v)

section Objects

variable {objects : Identity → Value} {s t : Identity} {vs ws : List Value} {v w : Value}

/-- Lists are compared by their elements, because one object has the same elements as itself. -/
theorem isEqual_list_iff (hs : objects s = .list s vs) (ht : objects t = .list t ws) :
    isEqual (.list s vs) (.list t ws) = true ↔ areEqual vs ws = true := by
  rw [isEqual, Bool.or_eq_true, or_iff_right_iff_imp]
  intro heqv
  simp only [isEqv, Bool.or_eq_true, beq_iff_eq, Bool.and_eq_true, List.isEmpty_iff] at heqv
  obtain rfl | ⟨rfl, rfl⟩ := heqv
  · cases hs.symm.trans ht
    exact areEqual_refl vs
  · rfl

theorem isEqual_vector_iff (hs : objects s = .vector s vs) (ht : objects t = .vector t ws) :
    isEqual (.vector s vs) (.vector t ws) = true ↔ areEqual vs ws = true := by
  rw [isEqual, Bool.or_eq_true, or_iff_right_iff_imp]
  intro heqv
  obtain rfl := beq_iff_eq.mp heqv
  cases hs.symm.trans ht
  exact areEqual_refl vs

theorem isEqual_improper_iff (hs : objects s = .improper s vs v)
    (ht : objects t = .improper t ws w) :
    isEqual (.improper s vs v) (.improper t ws w) = true ↔
      areEqual vs ws = true ∧ isEqual v w = true := by
  rw [isEqual, Bool.or_eq_true, Bool.and_eq_true, or_iff_right_iff_imp]
  intro heqv
  obtain rfl := beq_iff_eq.mp heqv
  cases hs.symm.trans ht
  exact ⟨areEqual_refl vs, isEqual_refl v⟩

/-- Sequences are equal when they represent the same data, if this is known of their elements. -/
theorem areEqual_iff {ds es : List Datum}
    (h : ∀ d ∈ ds, ∀ {e a b}, Represents objects d a → Represents objects e b →
      (isEqual a b = true ↔ d = e))
    (hvs : List.Forall₂ (Represents objects) ds vs)
    (hws : List.Forall₂ (Represents objects) es ws) : areEqual vs ws = true ↔ ds = es := by
  induction hvs generalizing es ws with
  | nil =>
    cases hws with
    | nil => exact ⟨fun _ => rfl, fun _ => rfl⟩
    | cons => exact ⟨nofun, nofun⟩
  | @cons d v ds vs hv _ ih =>
    cases hws with
    | nil => exact ⟨nofun, nofun⟩
    | @cons e w es ws hw hrest =>
      have hhead : isEqual v w = true ↔ d = e := h d List.mem_cons_self hv hw
      have htail : areEqual vs ws = true ↔ ds = es :=
        ih (fun d hd => h d (List.mem_cons_of_mem _ hd)) hrest
      rw [areEqual, Bool.and_eq_true, hhead, htail, List.cons.injEq]

/-- Values without reals are equal exactly when they represent the same datum. -/
theorem isEqual_iff {d e : Datum} {a b : Value} (hd : d.Readable) (ha : Represents objects d a)
    (hb : Represents objects e b) : isEqual a b = true ↔ d = e := by
  induction hd generalizing e a b with
  | real x hx => exact hx.elim
  | bool | int | char | sym =>
    cases ha
    cases hb <;> simp [isEqual, isEqv]
  | str =>
    cases ha
    cases hb <;> simp [isEqual, isEqv]
  | list ds _ ih =>
    cases ha with
    | list hs hvs =>
      cases hb with
      | list ht hws =>
        rw [isEqual_list_iff hs ht, areEqual_iff (fun d hd _ _ _ => ih d hd) hvs hws]
        exact ⟨congrArg _, fun h => (Node.list.inj h).2⟩
      | _ => exact ⟨nofun, nofun⟩
  | vector ds _ ih =>
    cases ha with
    | vector hs hvs =>
      cases hb with
      | vector ht hws =>
        rw [isEqual_vector_iff hs ht, areEqual_iff (fun d hd _ _ _ => ih d hd) hvs hws]
        exact ⟨congrArg _, fun h => (Node.vector.inj h).2⟩
      | _ => exact ⟨nofun, nofun⟩
  | improper ds tail _ _ _ _ ih ihtail =>
    cases ha with
    | improper hs hvs hv =>
      cases hb with
      | improper ht hws hw =>
        rw [isEqual_improper_iff hs ht, areEqual_iff (fun d hd _ _ _ => ih d hd) hvs hws,
          ihtail hv hw]
        constructor
        · rintro ⟨rfl, rfl⟩
          rfl
        · intro h
          exact (Node.improper.inj h).2
      | _ => exact ⟨nofun, nofun⟩

section Written

variable (name : Object → Option String) (readable : Bool)

theorem itemsChars_eq {ds : List Datum}
    (h : ∀ d ∈ ds, ∀ {v}, Represents objects d v →
      Node.chars name readable v = Node.chars Empty.elim readable d)
    (hvs : List.Forall₂ (Represents objects) ds vs) :
    Node.itemsChars name readable vs = Node.itemsChars Empty.elim readable ds := by
  induction hvs with
  | nil => rfl
  | @cons d v ds vs hv hrest ih =>
    have hhead := h d List.mem_cons_self hv
    have htail := ih fun d hd => h d (List.mem_cons_of_mem _ hd)
    cases hrest with
    | nil => simp only [Node.itemsChars, hhead]
    | cons => simp only [Node.itemsChars, hhead] at htail ⊢; rw [htail]

/-- A value is written like the datum that it represents: its identities are not shown. -/
theorem chars_eq {d : Datum} (hd : d.Readable) (hv : Represents objects d v) :
    Node.chars name readable v = Node.chars Empty.elim readable d := by
  induction hd generalizing v with
  | list ds _ ih =>
    cases hv with
    | list _ hvs =>
      rw [Node.chars, Node.chars, itemsChars_eq name readable (fun d hd _ => ih d hd) hvs]
  | vector ds _ ih =>
    cases hv with
    | vector _ hvs =>
      rw [Node.chars, Node.chars, itemsChars_eq name readable (fun d hd _ => ih d hd) hvs]
  | improper ds tail _ _ _ _ ih ihtail =>
    cases hv with
    | improper _ hvs htail =>
      rw [Node.chars, Node.chars, itemsChars_eq name readable (fun d hd _ => ih d hd) hvs,
        ihtail htail]
  | _ =>
    cases hv
    rfl

end Written

theorem write_eq {d : Datum} (hd : d.Readable) (hv : Represents objects d v) (m : Machine) :
    m.write v = d.write :=
  congrArg String.ofList (chars_eq m.objectText true hd hv)

/-- No two readable data are written alike. -/
theorem eq_of_write_eq {d e : Datum} (hd : d.Readable) (he : e.Readable) (h : d.write = e.write) :
    d = e := by
  have hread : ∀ {d : Datum}, d.Readable → Datum.readAll d.write = .ok [d] := fun hd => by
    have hnone := hd.reads (List.forall_mem_nil _)
    rwa [List.append_nil] at hnone
  have heq := (hread hd).symm.trans (h ▸ hread he)
  cases heq
  rfl

end Objects

/-- The objects up to an identity, and those from there on. -/
def joined (n : Nat) (heap later : Nat → Value) (k : Nat) : Value :=
  if k < n then heap k else later k

theorem split_joined {heap later : Nat → Value} {objects : Identity → Value} {low n high : Nat}
    (hlow : low ≤ n) (hhigh : n ≤ high)
    (h : ∀ k, low ≤ k → k < high → objects (.fresh k) = joined n heap later k) :
    (∀ k, low ≤ k → k < n → objects (.fresh k) = heap k) ∧
      ∀ k, n ≤ k → k < high → objects (.fresh k) = later k := by
  constructor
  · intro k hk hn
    rw [h k hk (hn.trans_le hhigh), joined, if_pos hn]
  · intro k hk hn
    rw [h k (hlow.trans hk) hn, joined, if_neg (Nat.not_lt.mpr hk)]

mutual

/-- A value that is made of a datum represents it wherever its objects are those that were made. -/
theorem ofDatum_represents : ∀ (d : Datum) (m : Machine), ∃ (v : Value) (n : Nat)
    (heap : Nat → Value), m.nextTag ≤ n ∧ Run.ofDatum d m = .ok v { m with nextTag := n } ∧
      ∀ objects : Identity → Value,
        (∀ k, m.nextTag ≤ k → k < n → objects (.fresh k) = heap k) → Represents objects d v
  | .bool b, m => ⟨.bool b, m.nextTag, fun _ => .bool b, le_rfl, rfl, fun _ _ => .bool b⟩
  | .int i, m => ⟨.int i, m.nextTag, fun _ => .int i, le_rfl, rfl, fun _ _ => .int i⟩
  | .char c, m => ⟨.char c, m.nextTag, fun _ => .char c, le_rfl, rfl, fun _ _ => .char c⟩
  | .sym name, m =>
    ⟨.sym name, m.nextTag, fun _ => .sym name, le_rfl, rfl, fun _ _ => .sym name⟩
  | .real x, m =>
    ⟨.real (.fresh m.nextTag) x, m.nextTag + 1, fun _ => .real (.fresh m.nextTag) x,
      Nat.le_succ _, rfl, fun _ _ => .real _ x⟩
  | .str text, m =>
    ⟨.str (.fresh m.nextTag) text, m.nextTag + 1, fun _ => .str (.fresh m.nextTag) text,
      Nat.le_succ _, rfl, fun _ _ => .str _ text⟩
  | .list ds, m => by
    obtain ⟨vs, n, heap, hle, hrun, hheap⟩ := ofData_represents ds m
    refine ⟨.list (.fresh n) vs, n + 1, joined n heap fun _ => .list (.fresh n) vs,
      Nat.le_succ_of_le hle, ?_, fun objects h => ?_⟩
    · unfold Run.ofDatum
      rw [bind_of_ok hrun]
      rfl
    · obtain ⟨hparts, hself⟩ := split_joined hle n.le_succ h
      exact .list (hself n le_rfl n.lt_succ_self) (hheap objects hparts)
  | .vector ds, m => by
    obtain ⟨vs, n, heap, hle, hrun, hheap⟩ := ofData_represents ds m
    refine ⟨.vector (.fresh n) vs, n + 1, joined n heap fun _ => .vector (.fresh n) vs,
      Nat.le_succ_of_le hle, ?_, fun objects h => ?_⟩
    · unfold Run.ofDatum
      rw [bind_of_ok hrun]
      rfl
    · obtain ⟨hparts, hself⟩ := split_joined hle n.le_succ h
      exact .vector (hself n le_rfl n.lt_succ_self) (hheap objects hparts)
  | .improper ds tail, m => by
    obtain ⟨vs, n, heap, hle, hrun, hheap⟩ := ofData_represents ds m
    obtain ⟨v, n', heap', hle', hrun', hheap'⟩ := ofDatum_represents tail { m with nextTag := n }
    refine ⟨.improper (.fresh n') vs v, n' + 1,
      joined n' (joined n heap heap') fun _ => .improper (.fresh n') vs v,
      Nat.le_succ_of_le (hle.trans hle'), ?_, fun objects h => ?_⟩
    · unfold Run.ofDatum
      rw [bind_of_ok hrun, bind_of_ok hrun']
      rfl
    · obtain ⟨hparts, hself⟩ := split_joined (hle.trans hle') n'.le_succ h
      obtain ⟨hitems, htail⟩ := split_joined hle hle' hparts
      exact .improper (hself n' le_rfl n'.lt_succ_self) (hheap objects hitems)
        (hheap' objects htail)
  | .object kind _, _ => kind.elim

theorem ofData_represents : ∀ (ds : List Datum) (m : Machine), ∃ (vs : List Value) (n : Nat)
    (heap : Nat → Value), m.nextTag ≤ n ∧ Run.ofData ds m = .ok vs { m with nextTag := n } ∧
      ∀ objects : Identity → Value,
        (∀ k, m.nextTag ≤ k → k < n → objects (.fresh k) = heap k) →
          List.Forall₂ (Represents objects) ds vs
  | [], m => ⟨[], m.nextTag, fun _ => .void, le_rfl, rfl, fun _ _ => .nil⟩
  | d :: rest, m => by
    obtain ⟨v, n, heap, hle, hrun, hheap⟩ := ofDatum_represents d m
    obtain ⟨vs, n', heap', hle', hrun', hheap'⟩ := ofData_represents rest { m with nextTag := n }
    refine ⟨v :: vs, n', joined n heap heap', hle.trans hle', ?_, fun objects h => ?_⟩
    · unfold Run.ofData
      rw [bind_of_ok hrun, bind_of_ok hrun']
      rfl
    · obtain ⟨hfirst, hrest⟩ := split_joined hle hle' h
      exact .cons (hheap objects hfirst) (hheap' objects hrest)

end

/-- Data that are made one after another share no objects, so that all of them are represented. -/
theorem exists_represents (ds : List Datum) (m : Machine) :
    ∃ vs m' objects, Run.ofData ds m = .ok vs m' ∧ List.Forall₂ (Represents objects) ds vs := by
  obtain ⟨vs, n, heap, -, hrun, hheap⟩ := ofData_represents ds m
  let objects : Identity → Value
    | .fresh k => heap k
    | _ => .void
  exact ⟨vs, { m with nextTag := n }, objects, hrun, hheap objects fun _ _ _ => rfl⟩

/-- On readable data, `equal?` finds out whether the data are the same, and so does writing them
down; it is an equivalence relation that `eqv?` is finer than. -/
theorem isEqual_structural (objects : Identity → Value) (m : Machine) :
    (∀ (d e : Datum) (a b : Value), d.Readable → e.Readable → Represents objects d a →
      Represents objects e b →
        (isEqual a b = true ↔ d = e) ∧ (d = e ↔ m.write a = m.write b) ∧
          (isEqv a b = true → isEqual a b = true)) ∧
    Equivalence fun a b : { v : Value // ∃ d : Datum, d.Readable ∧ Represents objects d v } =>
      isEqual a.1 b.1 = true := by
  constructor
  · intro d e a b hd he ha hb
    refine ⟨isEqual_iff hd ha hb, ?_, isEqual_of_isEqv⟩
    rw [write_eq hd ha, write_eq he hb]
    exact ⟨congrArg Datum.write, eq_of_write_eq hd he⟩
  · constructor
    · intro a
      exact isEqual_refl a.1
    · rintro ⟨a, d, hd, ha⟩ ⟨b, e, he, hb⟩ h
      rw [isEqual_iff hd ha hb] at h
      exact (isEqual_iff he hb ha).mpr h.symm
    · rintro ⟨a, d, hd, ha⟩ ⟨b, e, he, hb⟩ ⟨c, f, _, hc⟩ hab hbc
      rw [isEqual_iff hd ha hb] at hab
      rw [isEqual_iff he hb hc] at hbc
      exact (isEqual_iff hd ha hc).mpr (hab.trans hbc)

/-- A datum that is made twice is found equal and a third one is not, although none of the three is
the same object as another. -/
theorem isEqual_structural_sample :
    let m : Machine := ⟨"2.10", false, #[], #[], #[], #[], 0, 0, .empty, .ofFiles []⟩
    ∃ a b c m', Run.ofData [Datum.sample, Datum.sample, .list []] m = .ok [a, b, c] m' ∧
      isEqual a b = true ∧ m.write a = m.write b ∧ isEqual a c = false := by
  intro m
  obtain ⟨vs, m', objects, hrun, hvs⟩ :=
    exists_represents [Datum.sample, Datum.sample, .list []] m
  obtain _ | ⟨ha, _ | ⟨hb, _ | ⟨hc, _ | _⟩⟩⟩ := hvs
  have hsample := Datum.readable_sample
  have hempty : (Datum.list []).Readable := .list [] (List.forall_mem_nil _)
  obtain ⟨hequal, hwrite, -⟩ := (isEqual_structural objects m).1 _ _ _ _ hsample hsample ha hb
  obtain ⟨hother, -, -⟩ := (isEqual_structural objects m).1 _ _ _ _ hsample hempty ha hc
  refine ⟨_, _, _, m', hrun, hequal.mpr rfl, hwrite.mp rfl, ?_⟩
  rw [Bool.eq_false_iff, Ne, hother]
  intro h
  cases h

end LiveScheme.Value
