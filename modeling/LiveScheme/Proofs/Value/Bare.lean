import LiveScheme.Machine.Run

/-!
# Trees without identities

Two values are the same data, of the same kind at every part, when they differ in nothing but the
identities of their compound parts.
-/

namespace LiveScheme

/-- Data whose parts have no identities. -/
abbrev Tree := Node Unit Object

namespace Node

variable {ι ρ : Type}

mutual

/-- What is left of a tree without the identities of its parts. -/
def bare : Node ι ρ → Node Unit ρ
  | bool b => bool b
  | int n => int n
  | real _ x => real () x
  | str _ text => str () text
  | char c => char c
  | sym name => sym name
  | list _ items => list () (bareAll items)
  | vector _ items => vector () (bareAll items)
  | improper _ items tail => improper () (bareAll items) (bare tail)
  | object kind parts => object kind (bareAll parts)

def bareAll : List (Node ι ρ) → List (Node Unit ρ)
  | [] => []
  | x :: rest => bare x :: bareAll rest

end

theorem bareAll_eq_map (items : List (Node ι ρ)) : bareAll items = items.map bare := by
  induction items with
  | nil => rfl
  | cons x rest ih => rw [bareAll, ih, List.map_cons]

@[simp] theorem bare_list (tag : ι) (items : List (Node ι ρ)) :
    (list tag items).bare = list () (items.map bare) := by
  rw [bare, bareAll_eq_map]

@[simp] theorem bare_vector (tag : ι) (items : List (Node ι ρ)) :
    (vector tag items).bare = vector () (items.map bare) := by
  rw [bare, bareAll_eq_map]

@[simp] theorem bare_improper (tag : ι) (items : List (Node ι ρ)) (tail : Node ι ρ) :
    (improper tag items tail).bare = improper () (items.map bare) tail.bare := by
  rw [bare, bareAll_eq_map]

theorem eq_sym_of_isSym {name : String} {v : Node ι ρ} (h : v.isSym name = true) :
    v = sym name := by
  cases v with
  | sym x => rw [eq_of_beq h]
  | _ => cases h

end Node

/-- The machine after it has given out some identities. -/
def Machine.skip (m : Machine) (count : Nat) : Machine := { m with nextTag := m.nextTag + count }

@[simp] theorem Machine.skip_zero (m : Machine) : m.skip 0 = m := rfl

@[simp] theorem Machine.skip_skip (m : Machine) (j k : Nat) :
    (m.skip j).skip k = m.skip (j + k) := by
  unfold skip
  rw [Nat.add_assoc]

theorem Run.newList_eq (items : List Value) (m : Machine) :
    newList items m = .ok (.list (.fresh m.nextTag) items) (m.skip 1) := rfl

theorem Run.newVector_eq (items : List Value) (m : Machine) :
    newVector items m = .ok (.vector (.fresh m.nextTag) items) (m.skip 1) := rfl

theorem Run.newImproper_eq (items : List Value) (tail : Value) (m : Machine) :
    newImproper items tail m = .ok (.improper (.fresh m.nextTag) items tail) (m.skip 1) := rfl

end LiveScheme
