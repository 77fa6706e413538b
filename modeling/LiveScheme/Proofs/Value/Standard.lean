import LiveScheme.Evaluator.Basic
import LiveScheme.Proofs.Reading.Tokens

/-!
# Standards for values

What may be asked of every value that a program handles: that no keyword is among its parts, that no
editor service is, and that its pairs are normal. A pair is normal when it has elements and its tail
is neither a list nor a pair, so that no two trees stand for the same chain of pairs. Whatever is
made of values carries the standard over to them.
-/

namespace LiveScheme

/-- What is let through besides plain values. -/
structure Standard where
  keywords : Bool
  services : Bool
  loosePairs : Bool
deriving DecidableEq, Repr

namespace Standard

/-- Pairs in normal form, and no editor services. -/
def normal : Standard := ⟨true, false, false⟩

/-- No keywords. -/
def keywordless : Standard := ⟨false, true, true⟩

/-- The standard for templates that are still being filled in. -/
def draft (S : Standard) : Standard := { S with loosePairs := true }

theorem draft_eq {S : Standard} (h : S.loosePairs = true) : S.draft = S := by
  rw [draft, ← h]

end Standard

/-- Objects, with which of them a standard lets through. -/
class Judged (ρ : Type) where
  admits : Standard → ρ → Bool

export Judged (admits)

instance : Judged Object where
  admits S
    | .keyword _ => S.keywords
    | .primitive (.service _ _) => S.services
    | _ => true

instance : Judged Empty := ⟨fun _ => Empty.elim⟩

namespace Node

variable {ι ρ : Type}

variable [Judged ρ]

mutual

/-- Whether a tree lives up to a standard. -/
def lives (S : Standard) : Node ι ρ → Bool
  | list _ items | vector _ items => allLive S items
  | improper _ items tail =>
    (S.loosePairs || (!items.isEmpty && tail.endsChain)) && allLive S items && lives S tail
  | object kind parts => admits S kind && allLive S parts
  | _ => true

def allLive (S : Standard) : List (Node ι ρ) → Bool
  | [] => true
  | x :: rest => lives S x && allLive S rest

end

theorem allLive_eq_all (S : Standard) (xs : List (Node ι ρ)) : allLive S xs = xs.all (lives S) := by
  induction xs with
  | nil => rfl
  | cons x rest ih => rw [allLive, ih, List.all_cons]

end Node

/-- Things made of values, with what it means that they live up to a standard. -/
class Checkable (α : Type) where
  Meets : Standard → α → Prop

export Checkable (Meets)

/-- Things that hold no values. -/
class Plain (α : Type) : Prop

instance {α : Type} [Plain α] : Checkable α := ⟨fun _ _ => True⟩

@[simp, grind .] theorem meets_plain {α : Type} [Plain α] (S : Standard) (a : α) : Meets S a :=
  trivial

instance : Plain Unit where
instance : Plain Bool where
instance : Plain Nat where
instance : Plain Int where
instance : Plain Char where
instance : Plain String where
instance : Plain Number where
instance : Plain Identity where
instance : Plain Keyword where
instance : Plain Port where
instance : Plain Scope where

instance {ι ρ : Type} [Judged ρ] : Checkable (Node ι ρ) := ⟨fun S v => v.lives S = true⟩

instance {α : Type} [Checkable α] : Checkable (List α) := ⟨fun S l => ∀ a ∈ l, Meets S a⟩

instance {α : Type} [Checkable α] : Checkable (Option α) := ⟨fun S o => ∀ a ∈ o, Meets S a⟩

instance {α β : Type} [Checkable α] [Checkable β] : Checkable (α × β) :=
  ⟨fun S p => Meets S p.1 ∧ Meets S p.2⟩

instance : Checkable Formals := ⟨fun S f => Meets S f.required⟩

instance : Checkable Closure := ⟨fun S c => Meets S c.formals ∧ Meets S c.body⟩

instance : Checkable Form.LetBinding := ⟨fun S b => Meets S b.init⟩

instance : Checkable Step :=
  ⟨fun S step => match step with
    | .done v => Meets S v
    | .again e _ => Meets S e⟩

instance : Checkable Task :=
  ⟨fun S t => match t with
    | .eval e _ => Meets S e
    | .call p _ args => Meets S (Value.primitive p) ∧ Meets S args⟩

section Parts

variable {α : Type} [Checkable α] {S : Standard}

theorem meets_list_iff {l : List α} : Meets S l ↔ ∀ a ∈ l, Meets S a := Iff.rfl

@[grind .] theorem meets_plains {β : Type} [Plain β] (l : List β) : Meets S l :=
  fun _ _ => trivial

@[grind .] theorem meets_plain_option {β : Type} [Plain β] (o : Option β) : Meets S o :=
  fun _ _ => trivial

@[simp, grind =] theorem meets_nil : Meets S ([] : List α) ↔ True := by simp [meets_list_iff]

@[simp, grind =] theorem meets_cons {a : α} {l : List α} :
    Meets S (a :: l) ↔ Meets S a ∧ Meets S l := by simp [meets_list_iff]

@[simp, grind =] theorem meets_append {l l' : List α} :
    Meets S (l ++ l') ↔ Meets S l ∧ Meets S l' := by
  simp [meets_list_iff, or_imp, forall_and]

@[simp, grind =] theorem meets_none : Meets S (none : Option α) ↔ True := by simp [Meets]

@[simp, grind =] theorem meets_some {a : α} : Meets S (some a) ↔ Meets S a := by simp [Meets]

@[simp, grind =] theorem meets_pair {β : Type} [Checkable β] {a : α} {b : β} :
    Meets S (a, b) ↔ Meets S a ∧ Meets S b := Iff.rfl

theorem meets_of_sublist {l l' : List α} (h : Meets S l') (hl : l.Sublist l') : Meets S l :=
  fun a ha => h a (hl.subset ha)

@[grind .] theorem meets_drop {l : List α} (h : Meets S l) (n : Nat) : Meets S (l.drop n) :=
  meets_of_sublist h (List.drop_sublist n l)

@[grind .] theorem meets_dropLast {l : List α} (h : Meets S l) : Meets S l.dropLast :=
  meets_of_sublist h (List.dropLast_sublist l)

@[grind .] theorem meets_dropWhile {l : List α} (h : Meets S l) (p : α → Bool) :
    Meets S (l.dropWhile p) :=
  meets_of_sublist h (List.dropWhile_sublist p)

@[simp, grind =] theorem meets_reverse {l : List α} : Meets S l.reverse ↔ Meets S l := by
  simp [meets_list_iff]

@[grind .] theorem meets_getElem? {l : List α} (h : Meets S l) (n : Nat) : Meets S l[n]? :=
  fun a ha => h a (List.mem_of_getElem? ha)

@[grind .] theorem meets_getD {o : Option α} {a : α} (h : Meets S o) (ha : Meets S a) :
    Meets S (o.getD a) := by
  cases o with
  | none => exact ha
  | some b => exact h b rfl

theorem meets_list_getD {l : List α} {a : α} (h : Meets S l) (ha : Meets S a) (n : Nat) :
    Meets S (l.getD n a) := by
  rw [List.getD_eq_getElem?_getD]
  exact meets_getD (meets_getElem? h n) ha

theorem meets_headD {l : List α} {a : α} (h : Meets S l) (ha : Meets S a) :
    Meets S (l.headD a) := by
  cases l with
  | nil => exact ha
  | cons b l => exact (meets_cons.mp h).1

theorem meets_getLastD {l : List α} {a : α} (h : Meets S l) (ha : Meets S a) :
    Meets S (l.getLastD a) := by
  rw [List.getLastD_eq_getLast?]
  exact meets_getD (fun b hb => h b (List.mem_of_getLast? hb)) ha

end Parts

section Trees

variable {ι ρ : Type} [Judged ρ] {S : Standard}

theorem meets_node_iff {v : Node ι ρ} : Meets S v ↔ v.lives S = true := Iff.rfl

theorem allLive_eq_true {vs : List (Node ι ρ)} : Node.allLive S vs = true ↔ Meets S vs := by
  rw [Node.allLive_eq_all, List.all_eq_true]
  rfl

@[simp, grind .] theorem meets_bool (b : Bool) : Meets S (Node.bool b : Node ι ρ) := rfl

@[simp, grind .] theorem meets_int (n : Int) : Meets S (Node.int n : Node ι ρ) := rfl

@[simp, grind .] theorem meets_real (t : ι) (x : Float) : Meets S (Node.real t x : Node ι ρ) := rfl

@[simp, grind .] theorem meets_str (t : ι) (text : String) :
    Meets S (Node.str t text : Node ι ρ) := rfl

@[simp, grind .] theorem meets_char (c : Char) : Meets S (Node.char c : Node ι ρ) := rfl

@[simp, grind .] theorem meets_sym (name : String) : Meets S (Node.sym name : Node ι ρ) := rfl

@[simp, grind =] theorem meets_list {t : ι} {items : List (Node ι ρ)} :
    Meets S (Node.list t items) ↔ Meets S items := allLive_eq_true

@[simp, grind =] theorem meets_vector {t : ι} {items : List (Node ι ρ)} :
    Meets S (Node.vector t items) ↔ Meets S items := allLive_eq_true

/-- A pair may be loose, or has elements and a tail that ends the chain. -/
@[simp, grind =] theorem meets_improper {t : ι} {items : List (Node ι ρ)} {tail : Node ι ρ} :
    Meets S (Node.improper t items tail) ↔
      (S.loosePairs = true ∨ items ≠ [] ∧ tail.endsChain = true) ∧ Meets S items ∧
        Meets S tail := by
  rw [← allLive_eq_true, meets_node_iff, meets_node_iff, Node.lives]
  cases items <;> simp [and_assoc]

@[simp, grind =] theorem meets_object {kind : ρ} {parts : List (Node ι ρ)} :
    Meets S (Node.object kind parts : Node ι ρ) ↔ admits S kind = true ∧ Meets S parts := by
  rw [← allLive_eq_true, meets_node_iff, Node.lives, Bool.and_eq_true]

@[grind .] theorem meets_elements? {v : Node ι ρ} (h : Meets S v) : Meets S v.elements? := by
  cases v with
  | list t items => exact meets_some.mpr (meets_list.mp h)
  | vector t items => exact meets_some.mpr (meets_vector.mp h)
  | _ => exact meets_none.mpr trivial

/-- Elements joined to a tail are in normal form when there are elements, or when the tail brings
its own. -/
theorem meets_attach {t : ι} {items : List (Node ι ρ)} {tail : Node ι ρ}
    (h : S.loosePairs = true ∨ items ≠ [] ∨ tail.endsChain = false) (hitems : Meets S items)
    (htail : Meets S tail) : Meets S (Node.attach t items tail) := by
  cases tail with
  | list u more => exact meets_list.mpr (meets_append.mpr ⟨hitems, meets_list.mp htail⟩)
  | improper u more tail =>
    obtain ⟨hloose, hmore, htail⟩ := meets_improper.mp htail
    refine meets_improper.mpr ⟨?_, meets_append.mpr ⟨hitems, hmore⟩, htail⟩
    exact hloose.imp_right fun ⟨hne, hend⟩ => ⟨List.append_ne_nil_of_right_ne_nil items hne, hend⟩
  | _ =>
    refine meets_improper.mpr ⟨?_, hitems, htail⟩
    rcases h with hloose | hne | hend
    · exact .inl hloose
    · exact .inr ⟨hne, rfl⟩
    · cases hend

end Trees

section Values

variable {S : Standard}

@[simp, grind =] theorem admits_void : admits S Object.void = true := rfl

@[simp, grind =] theorem admits_several (t : Identity) : admits S (Object.several t) = true := rfl

@[simp, grind =] theorem admits_closure (id : Nat) : admits S (Object.closure id) = true := rfl

@[simp, grind =] theorem admits_builtin (b : Builtin) :
    admits S (Object.primitive (.builtin b)) = true := rfl

@[simp, grind =] theorem admits_service (connection : Nat) (service : Service) :
    admits S (Object.primitive (.service connection service)) = S.services := rfl

@[simp, grind =] theorem admits_keyword (k : Keyword) : admits S (Object.keyword k) = S.keywords :=
  rfl

@[simp, grind =] theorem admits_space (id : Nat) : admits S (Object.space id) = true := rfl

@[simp, grind =] theorem admits_port (p : Port) : admits S (Object.port p) = true := rfl

@[simp, grind .] theorem meets_void : Meets S Value.void :=
  meets_object.mpr ⟨rfl, meets_nil.mpr trivial⟩

@[simp, grind =] theorem meets_formals {required : List Value} {rest : Option String} :
    Meets S (Formals.mk required rest) ↔ Meets S required := Iff.rfl

@[simp, grind =] theorem meets_closure {name : Option String} {formals : Formals} {body : Value}
    {scope : Scope} {doc : String} :
    Meets S (Closure.mk name formals body scope doc) ↔ Meets S formals ∧ Meets S body := Iff.rfl

@[simp, grind =] theorem meets_letBinding {name : String} {init : Option Value} :
    Meets S (Form.LetBinding.mk name init) ↔ Meets S init := Iff.rfl

@[simp, grind =] theorem meets_done {v : Value} : Meets S (Step.done v) ↔ Meets S v := Iff.rfl

@[simp, grind =] theorem meets_again {e : Value} {s : Scope} :
    Meets S (Step.again e s) ↔ Meets S e := Iff.rfl

@[simp, grind =] theorem meets_evalTask {e : Value} {s : Scope} :
    Meets S (Task.eval e s) ↔ Meets S e := Iff.rfl

@[simp, grind =] theorem meets_callTask {p : Primitive} {s : Scope} {args : List Value} :
    Meets S (Task.call p s args) ↔ Meets S (Value.primitive p) ∧ Meets S args := Iff.rfl

mutual

/-- A draft may be loose where the standard is not. -/
theorem meets_draft : ∀ {v : Value}, Meets S v → Meets S.draft v
  | .bool _, _ | .int _, _ | .real _ _, _ | .str _ _, _ | .char _, _ | .sym _, _ => rfl
  | .list _ items, h => meets_list.mpr (meets_all_draft (meets_list.mp h))
  | .vector _ items, h => meets_vector.mpr (meets_all_draft (meets_vector.mp h))
  | .improper _ items tail, h => by
    obtain ⟨-, hitems, htail⟩ := meets_improper.mp h
    exact meets_improper.mpr ⟨.inl rfl, meets_all_draft hitems, meets_draft htail⟩
  | .object kind parts, h => by
    obtain ⟨hkind, hparts⟩ := meets_object.mp h
    exact meets_object.mpr ⟨hkind, meets_all_draft hparts⟩

theorem meets_all_draft : ∀ {vs : List Value}, Meets S vs → Meets S.draft vs
  | [], _ => meets_nil.mpr trivial
  | _ :: _, h => by
    obtain ⟨hv, hrest⟩ := meets_cons.mp h
    exact meets_cons.mpr ⟨meets_draft hv, meets_all_draft hrest⟩

end

end Values

end LiveScheme
