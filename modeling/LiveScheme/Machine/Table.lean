/-!
# Tables in insertion order

A table keeps its names in the order in which they were first put; putting a name again replaces
its entry in place.
-/

namespace LiveScheme

abbrev Table (α : Type) := List (String × α)

namespace Table

variable {α : Type}

def get? : Table α → String → Option α
  | [], _ => none
  | entry :: rest, name => if entry.1 = name then some entry.2 else get? rest name

def has (t : Table α) (name : String) : Bool := (t.get? name).isSome

def put : Table α → String → α → Table α
  | [], name, a => [(name, a)]
  | entry :: rest, name, a =>
    if entry.1 = name then (name, a) :: rest else entry :: put rest name a

def names (t : Table α) : List String := t.map (·.1)

@[simp] theorem get?_nil (name : String) : get? ([] : Table α) name = none := rfl

@[simp] theorem get?_put_self (t : Table α) (name : String) (a : α) :
    (t.put name a).get? name = some a := by
  induction t with
  | nil => simp [put, get?]
  | cons entry rest ih => by_cases h : entry.1 = name <;> simp [put, get?, h, ih]

theorem get?_put_of_ne (t : Table α) {name other : String} (a : α) (h : other ≠ name) :
    (t.put name a).get? other = t.get? other := by
  induction t with
  | nil => simp [put, get?, h.symm]
  | cons entry rest ih =>
    by_cases he : entry.1 = name
    · simp [put, get?, he, h.symm]
    · simp [put, get?, he, ih]

end Table

end LiveScheme
