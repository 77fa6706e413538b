/-!
# Data

One tree type serves two kinds of data. A `Datum` is what a text denotes. A runtime value has in
addition an identity on each of its compound parts and, at its leaves, runtime objects; an object
may hold further values. Pairs are kept flat: a proper list is a `list`, and a chain of pairs that
ends in anything else is an `improper` with its elements and its tail.
-/

namespace LiveScheme

/-- Trees with identities of type `ι` and objects of type `ρ`. -/
inductive Node (ι ρ : Type) where
  | bool (b : Bool)
  | int (n : Int)
  | real (tag : ι) (x : Float)
  | str (tag : ι) (text : String)
  | char (c : Char)
  | sym (name : String)
  | list (tag : ι) (items : List (Node ι ρ))
  | vector (tag : ι) (items : List (Node ι ρ))
  | improper (tag : ι) (items : List (Node ι ρ)) (tail : Node ι ρ)
  | object (kind : ρ) (parts : List (Node ι ρ))

abbrev Datum := Node Unit Empty

namespace Node

variable {ι ρ : Type}

instance [Inhabited ι] : Inhabited (Node ι ρ) := ⟨list default []⟩

/-- The elements followed by the tail, flattened when the tail is itself a list or improper. -/
def attach (tag : ι) (items : List (Node ι ρ)) : Node ι ρ → Node ι ρ
  | list _ more => list tag (items ++ more)
  | improper _ more tail => improper tag (items ++ more) tail
  | tail => improper tag items tail

def isSym (name : String) : Node ι ρ → Bool
  | sym x => x == name
  | _ => false

/-- The elements of a list or a vector. -/
def elements? : Node ι ρ → Option (List (Node ι ρ))
  | list _ items | vector _ items => some items
  | _ => none

/-- The characters of a string or of a character taken as a text of its own. -/
def text? : Node ι ρ → Option (List Char)
  | str _ text => some text.toList
  | char c => some [c]
  | _ => none

def isFalse : Node ι ρ → Bool
  | bool false => true
  | _ => false

def isProperList : Node ι ρ → Bool
  | list _ _ => true
  | _ => false

end Node

namespace Datum

@[match_pattern] abbrev str (text : String) : Datum := Node.str () text
@[match_pattern] abbrev list (items : List Datum) : Datum := Node.list () items
@[match_pattern] abbrev vector (items : List Datum) : Datum := Node.vector () items
@[match_pattern] abbrev improper (items : List Datum) (tail : Datum) : Datum :=
  Node.improper () items tail
@[match_pattern] abbrev real (x : Float) : Datum := Node.real () x

end Datum

end LiveScheme
