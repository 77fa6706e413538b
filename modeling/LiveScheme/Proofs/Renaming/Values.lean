import LiveScheme.Evaluator.Basic
import Mathlib.Logic.Function.Basic

/-!
# Other identities

Which number an object bears and where a closure stands in its machine is of no account to a
program: it can only compare identities and call closures. A renaming gives other numbers to
identities and other places to closures, one to one. Here it is carried over to everything that
values are made of and that holds values; what a program looks at does not change by it.
-/

namespace LiveScheme

/-- Other numbers for identities and other places for closures. -/
structure Renaming where
  tag : Nat → Nat
  place : Nat → Nat
  tag_injective : Function.Injective tag
  place_injective : Function.Injective place

/-- Things in which identities and closures can be renamed. -/
class Renames (α : Type) where
  rename : Renaming → α → α

/-- The same thing under a renaming. -/
def Renaming.on {α : Type} [Renames α] (ρ : Renaming) (a : α) : α := Renames.rename ρ a

/-- Things that no renaming changes. -/
class Fixed (α : Type) [Renames α] : Prop where
  on_eq : ∀ (ρ : Renaming) (a : α), ρ.on a = a

/-- Things without identities and closures. -/
class Nameless (α : Type) : Prop

instance {α : Type} [Nameless α] : Renames α := ⟨fun _ a => a⟩
instance {α : Type} [Nameless α] : Fixed α := ⟨fun _ _ => rfl⟩

instance : Nameless Unit where
instance : Nameless Bool where
instance : Nameless Nat where
instance : Nameless Int where
instance : Nameless Char where
instance : Nameless String where
instance : Nameless Number where
instance : Nameless Port where
instance : Nameless Scope where
instance : Nameless Datum where
instance : Nameless Reply where
instance : Nameless Connection where
instance : Nameless Introspection.Kind where

instance : Renames Identity where
  rename ρ
    | .fresh n => .fresh (ρ.tag n)
    | tag => tag

instance : Renames Keyword where
  rename ρ
    | .form f => .form f
    | .expander tag name transformer => .expander (ρ.on tag) name (ρ.place transformer)

instance : Renames Object where
  rename ρ
    | .several tag => .several (ρ.on tag)
    | .closure id => .closure (ρ.place id)
    | .keyword k => .keyword (ρ.on k)
    | kind => kind

namespace Renaming

mutual

def value (ρ : Renaming) : Value → Value
  | .bool b => .bool b
  | .int n => .int n
  | .real tag x => .real (ρ.on tag) x
  | .str tag text => .str (ρ.on tag) text
  | .char c => .char c
  | .sym name => .sym name
  | .list tag items => .list (ρ.on tag) (values ρ items)
  | .vector tag items => .vector (ρ.on tag) (values ρ items)
  | .improper tag items tail => .improper (ρ.on tag) (values ρ items) (value ρ tail)
  | .object kind parts => .object (ρ.on kind) (values ρ parts)

def values (ρ : Renaming) : List Value → List Value
  | [] => []
  | v :: rest => value ρ v :: values ρ rest

end

end Renaming

instance : Renames Value := ⟨Renaming.value⟩

instance {α : Type} [Renames α] : Renames (List α) := ⟨fun ρ l => l.map ρ.on⟩
instance {α : Type} [Renames α] : Renames (Option α) := ⟨fun ρ o => o.map ρ.on⟩
instance {α β : Type} [Renames α] [Renames β] : Renames (α × β) := ⟨fun ρ p => (ρ.on p.1, ρ.on p.2)⟩
instance {ε α : Type} [Renames α] : Renames (Except ε α) := ⟨fun ρ e => e.map ρ.on⟩

instance : Renames Formals := ⟨fun ρ f => ⟨ρ.on f.required, f.rest⟩⟩

instance : Renames Closure := ⟨fun ρ c => { c with formals := ρ.on c.formals, body := ρ.on c.body }⟩

instance : Renames Module :=
  ⟨fun ρ d => { d with vars := ρ.on d.vars, expanders := ρ.on d.expanders }⟩

instance : Renames Form.LetBinding := ⟨fun ρ b => ⟨b.name, ρ.on b.init⟩⟩

instance : Renames Step where
  rename ρ
    | .done v => .done (ρ.on v)
    | .again e s => .again (ρ.on e) s

instance : Renames Task where
  rename ρ
    | .eval e s => .eval (ρ.on e) s
    | .call p s args => .call p s (ρ.on args)

instance : Renames Introspection.Found := ⟨fun ρ found => { found with value := ρ.on found.value }⟩

instance : Renames Signature := ⟨fun ρ sig => { sig with required := ρ.on sig.required }⟩

namespace Renaming

variable {ρ : Renaming} {α β : Type} [Renames α] [Renames β]

@[simp] theorem on_fixed [Fixed α] (a : α) : ρ.on a = a := Fixed.on_eq ρ a

@[simp] theorem on_nil : ρ.on ([] : List α) = [] := rfl

@[simp] theorem on_cons (a : α) (l : List α) : ρ.on (a :: l) = ρ.on a :: ρ.on l := rfl

@[simp] theorem on_none : ρ.on (none : Option α) = none := rfl

@[simp] theorem on_some (a : α) : ρ.on (some a) = some (ρ.on a) := rfl

@[simp] theorem on_mk (a : α) (b : β) : ρ.on (a, b) = (ρ.on a, ρ.on b) := rfl

@[simp] theorem on_ok {ε : Type} (a : α) : ρ.on (.ok a : Except ε α) = .ok (ρ.on a) := rfl

@[simp] theorem on_error {ε : Type} (e : ε) : ρ.on (.error e : Except ε α) = .error e := rfl

@[simp] theorem on_bool (b : Bool) : ρ.on (Node.bool b : Value) = .bool b := rfl

@[simp] theorem on_int (n : Int) : ρ.on (Node.int n : Value) = .int n := rfl

@[simp] theorem on_real (tag : Identity) (x : Float) :
    ρ.on (Node.real tag x : Value) = .real (ρ.on tag) x := rfl

@[simp] theorem on_str (tag : Identity) (text : String) :
    ρ.on (Node.str tag text : Value) = .str (ρ.on tag) text := rfl

@[simp] theorem on_char (c : Char) : ρ.on (Node.char c : Value) = .char c := rfl

@[simp] theorem on_sym (name : String) : ρ.on (Node.sym name : Value) = .sym name := rfl

theorem values_eq (l : List Value) : ρ.values l = ρ.on l := by
  induction l with
  | nil => rfl
  | cons v rest ih => rw [values, ih]; rfl

@[simp] theorem on_list (tag : Identity) (items : List Value) :
    ρ.on (Node.list tag items : Value) = .list (ρ.on tag) (ρ.on items) :=
  congrArg _ (values_eq items)

@[simp] theorem on_vector (tag : Identity) (items : List Value) :
    ρ.on (Node.vector tag items : Value) = .vector (ρ.on tag) (ρ.on items) :=
  congrArg _ (values_eq items)

@[simp] theorem on_improper (tag : Identity) (items : List Value) (tail : Value) :
    ρ.on (Node.improper tag items tail : Value) =
      .improper (ρ.on tag) (ρ.on items) (ρ.on tail) :=
  congrArg (Node.improper _ · _) (values_eq items)

@[simp] theorem on_object (kind : Object) (parts : List Value) :
    ρ.on (Node.object kind parts : Value) = .object (ρ.on kind) (ρ.on parts) :=
  congrArg _ (values_eq parts)

@[simp] theorem on_fresh (n : Nat) : ρ.on (Identity.fresh n) = .fresh (ρ.tag n) := rfl

@[simp] theorem on_symbolName : ρ.on Identity.symbolName = .symbolName := rfl

@[simp] theorem on_versionText : ρ.on Identity.versionText = .versionText := rfl

@[simp] theorem on_void : ρ.on Object.void = .void := rfl

@[simp] theorem on_several (tag : Identity) : ρ.on (Object.several tag) = .several (ρ.on tag) := rfl

@[simp] theorem on_closure (id : Nat) : ρ.on (Object.closure id) = .closure (ρ.place id) := rfl

@[simp] theorem on_primitive (p : Primitive) : ρ.on (Object.primitive p) = .primitive p := rfl

@[simp] theorem on_keyword (k : Keyword) : ρ.on (Object.keyword k) = .keyword (ρ.on k) := rfl

@[simp] theorem on_space (id : Nat) : ρ.on (Object.space id) = .space id := rfl

@[simp] theorem on_port (p : Port) : ρ.on (Object.port p) = .port p := rfl

@[simp] theorem on_form (f : SpecialForm) : ρ.on (Keyword.form f) = .form f := rfl

@[simp] theorem on_expander (tag : Identity) (name : String) (transformer : Nat) :
    ρ.on (Keyword.expander tag name transformer) =
      .expander (ρ.on tag) name (ρ.place transformer) := rfl

@[simp] theorem on_done (v : Value) : ρ.on (Step.done v) = .done (ρ.on v) := rfl

@[simp] theorem on_again (e : Value) (s : Scope) : ρ.on (Step.again e s) = .again (ρ.on e) s := rfl

theorem on_formals (f : Formals) : ρ.on f = ⟨ρ.on f.required, f.rest⟩ := rfl

theorem on_closure' (c : Closure) :
    ρ.on c = { c with formals := ρ.on c.formals, body := ρ.on c.body } := rfl

theorem on_module (d : Module) :
    ρ.on d = { d with vars := ρ.on d.vars, expanders := ρ.on d.expanders } := rfl

@[simp] theorem on_append (l l' : List α) : ρ.on (l ++ l') = ρ.on l ++ ρ.on l' :=
  List.map_append

@[simp] theorem length_on (l : List α) : (ρ.on l).length = l.length := List.length_map _

@[simp] theorem drop_on (n : Nat) (l : List α) : (ρ.on l).drop n = ρ.on (l.drop n) :=
  List.map_drop.symm

@[simp] theorem reverse_on (l : List α) : (ρ.on l).reverse = ρ.on l.reverse :=
  List.map_reverse.symm

@[simp] theorem dropLast_on (l : List α) : (ρ.on l).dropLast = ρ.on l.dropLast :=
  List.map_dropLast.symm

@[simp] theorem getElem?_on (l : List α) (n : Nat) : (ρ.on l)[n]? = ρ.on l[n]? :=
  List.getElem?_map

@[simp] theorem isEmpty_on (l : List α) : (ρ.on l).isEmpty = l.isEmpty := List.isEmpty_map

@[simp] theorem headD_on (l : List α) (a : α) : (ρ.on l).headD (ρ.on a) = ρ.on (l.headD a) := by
  cases l <;> rfl

@[simp] theorem getD_on (l : List α) (n : Nat) (a : α) :
    (ρ.on l).getD n (ρ.on a) = ρ.on (l.getD n a) := by
  rw [List.getD_eq_getElem?_getD, getElem?_on, List.getD_eq_getElem?_getD]
  cases l[n]? <;> rfl

@[simp] theorem option_getD_on (o : Option α) (a : α) :
    (ρ.on o).getD (ρ.on a) = ρ.on (o.getD a) := by
  cases o <;> rfl

@[simp] theorem isSome_on (o : Option α) : (ρ.on o).isSome = o.isSome := by
  cases o <;> rfl

instance [Fixed α] : Fixed (List α) :=
  ⟨fun _ l => (List.map_congr_left fun a _ => on_fixed a).trans (List.map_id l)⟩

instance [Fixed α] : Fixed (Option α) := ⟨fun ρ o => by cases o <;> simp⟩

instance [Fixed α] [Fixed β] : Fixed (α × β) := ⟨fun ρ p => by cases p; simp⟩

/-- Identities stay apart. -/
@[simp] theorem beq_identity (s t : Identity) : (ρ.on s == ρ.on t) = (s == t) := by
  have hiff : ρ.on s = ρ.on t ↔ s = t := by
    constructor
    · intro h
      cases s <;> cases t <;> simp at h ⊢
      exact ρ.tag_injective h
    · rintro rfl
      rfl
  rw [Bool.eq_iff_iff, beq_iff_eq, beq_iff_eq, hiff]

@[simp] theorem beq_object (a b : Object) : (ρ.on a == ρ.on b) = (a == b) := by
  have hiff : ρ.on a = ρ.on b ↔ a = b := by
    have htag : ∀ s t : Identity, ρ.on s = ρ.on t ↔ s = t := fun s t => by
      rw [← beq_iff_eq, beq_identity, beq_iff_eq]
    rcases a with _ | _ | _ | _ | (_ | _) | _ | _ <;>
      rcases b with _ | _ | _ | _ | (_ | _) | _ | _ <;>
      simp [ρ.place_injective.eq_iff, htag]
  rw [Bool.eq_iff_iff, beq_iff_eq, beq_iff_eq, hiff]

end Renaming

namespace Renaming

/-- Every number and every place stays. -/
def identity : Renaming := ⟨id, id, Function.injective_id, Function.injective_id⟩

/-- Things that stay as they are when every number and every place does. -/
class Steady (α : Type) [Renames α] : Prop where
  on_identity : ∀ a : α, identity.on a = a

export Steady (on_identity)

variable {α β : Type} [Renames α] [Renames β]

instance [Fixed α] : Steady α := ⟨on_fixed⟩

instance [Steady α] : Steady (List α) :=
  ⟨fun l => (List.map_congr_left fun a _ => on_identity a).trans (List.map_id l)⟩

instance [Steady α] : Steady (Option α) :=
  ⟨fun o => by cases o <;> simp [on_identity]⟩

instance [Steady α] [Steady β] : Steady (α × β) := ⟨fun p => by cases p; simp [on_identity]⟩

instance : Steady Identity := ⟨fun tag => by cases tag <;> rfl⟩

instance : Steady Keyword := ⟨fun k => by cases k <;> simp [on_identity]; rfl⟩

instance : Steady Object := ⟨fun kind => by cases kind <;> simp [on_identity]; rfl⟩

mutual

theorem value_identity : ∀ v : Value, identity.on v = v
  | .bool _ | .int _ | .char _ | .sym _ | .real _ _ | .str _ _ => by simp [on_identity]
  | .list _ items | .vector _ items => by simp [on_identity, values_identity items]
  | .improper _ items tail => by
    simp [on_identity, values_identity items, value_identity tail]
  | .object _ parts => by simp [on_identity, values_identity parts]

theorem values_identity : ∀ vs : List Value, identity.on vs = vs
  | [] => rfl
  | v :: rest => by simp [value_identity v, values_identity rest]

end

instance : Steady Value := ⟨value_identity⟩

instance : Steady Formals := ⟨fun f => by rw [on_formals, on_identity]⟩

instance : Steady Closure := ⟨fun c => by rw [on_closure', on_identity, on_identity]⟩

instance : Steady Module := ⟨fun d => by rw [on_module, on_identity, on_identity]⟩

end Renaming

section Observations

variable {ρ : Renaming}

open Renaming

@[simp] theorem Node.isSym_on (name : String) (v : Value) : (ρ.on v).isSym name = v.isSym name := by
  cases v <;> simp [Node.isSym]

@[simp] theorem Node.elements?_on (v : Value) : (ρ.on v).elements? = ρ.on v.elements? := by
  cases v <;> simp [Node.elements?]

@[simp] theorem Node.text?_on (v : Value) : (ρ.on v).text? = v.text? := by
  cases v <;> simp [Node.text?]

@[simp] theorem Node.isFalse_on (v : Value) : (ρ.on v).isFalse = v.isFalse := by
  cases v <;> simp [Node.isFalse]

@[simp] theorem Node.isProperList_on (v : Value) : (ρ.on v).isProperList = v.isProperList := by
  cases v <;> simp [Node.isProperList]

@[simp] theorem Node.attach_on (tag : Identity) (items : List Value) (tail : Value) :
    Node.attach (ρ.on tag) (ρ.on items) (ρ.on tail) = ρ.on (Node.attach tag items tail) := by
  cases tail <;> simp [Node.attach]

namespace Value

@[simp] theorem number?_on (v : Value) : number? (ρ.on v) = number? v := by
  cases v <;> simp [number?]

@[simp] theorem index?_on (v : Value) : index? (ρ.on v) = index? v := by
  cases v <;> simp [index?]

@[simp] theorem isProcedure_on (v : Value) : isProcedure (ρ.on v) = isProcedure v := by
  cases v with
  | object kind parts => cases kind <;> cases parts <;> simp [isProcedure]
  | _ => simp [isProcedure]

@[simp] theorem spread_on (v : Value) : spread (ρ.on v) = ρ.on (spread v) := by
  cases v with
  | object kind parts => cases kind <;> cases parts <;> simp [spread]
  | _ => simp [spread]

@[simp] theorem kindWord_on (v : Value) : kindWord (ρ.on v) = kindWord v := by
  cases v with
  | object kind parts => cases kind <;> simp [kindWord]
  | _ => simp [kindWord]

@[simp] theorem isEqv_on (v w : Value) : isEqv (ρ.on v) (ρ.on w) = isEqv v w := by
  cases v <;> cases w <;> simp [isEqv]

mutual

theorem isEqual_on : ∀ v w : Value, isEqual (ρ.on v) (ρ.on w) = isEqual v w
  | .list s xs, w => by cases w <;> simp [isEqual, isEqv, areEqual_on xs]
  | .vector s xs, w => by cases w <;> simp [isEqual, isEqv, areEqual_on xs]
  | .improper s xs a, w => by
    cases w <;> simp [isEqual, isEqv, areEqual_on xs, isEqual_on a]
  | .str _ a, w => by cases w <;> simp [isEqual, isEqv]
  | .bool _, w | .int _, w | .real _ _, w | .char _, w | .sym _, w | .object _ _, w => by
    cases w <;> simp [isEqual, isEqv]

theorem areEqual_on : ∀ vs ws : List Value, areEqual (ρ.on vs) (ρ.on ws) = areEqual vs ws
  | [], ws => by cases ws <;> simp [areEqual]
  | v :: vs, ws => by cases ws <;> simp [areEqual, isEqual_on v, areEqual_on vs]

end

end Value

end Observations

end LiveScheme
