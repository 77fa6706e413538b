import LiveScheme.Datum.Basic
import LiveScheme.Decimal.Shortest
import LiveScheme.Text.Quoted

/-!
# Data in messages

Messages about a datum show its structure: elements between brackets with commas, texts quoted,
truth values as words. A label shows symbols, strings and characters bare instead.
-/

namespace LiveScheme

namespace Node

variable {ι ρ : Type}

def describeReal (x : Float) : List Char :=
  if x.isNaN then "nan".toList
  else if x.isInf then (if 0 < x then "inf".toList else "-inf".toList)
  else Decimal.writeFinite x

mutual

/-- The description of a tree; `name` gives the text of an object. -/
def described (name : ρ → Option String) : Node ι ρ → List Char
  | bool b => if b then "True".toList else "False".toList
  | int n => (toString n).toList
  | real _ x => describeReal x
  | str _ text => Text.quoted text.toList
  | char c => "Char(".toList ++ Text.quoted [c] ++ [')']
  | sym x => if x.isEmpty then ['|', '|'] else x.toList
  | list _ items => '[' :: describedItems name items ++ [']']
  | vector _ items => '[' :: describedItems name items ++ [']']
  | improper _ items tail =>
    '(' :: '[' :: describedItems name items ++ [']', ',', ' '] ++ described name tail ++ [')']
  | object kind parts =>
    match name kind with
    | some text => text.toList
    | none => "MultipleValues([".toList ++ describedItems name parts ++ [']', ')']

def describedItems (name : ρ → Option String) : List (Node ι ρ) → List Char
  | [] => []
  | x :: rest =>
    described name x ++
      match rest with
      | [] => []
      | _ => ',' :: ' ' :: describedItems name rest

end

/-- The text of a tree that stands for a name. -/
def label (name : ρ → Option String) : Node ι ρ → List Char
  | str _ text => text.toList
  | char c => [c]
  | sym x => x.toList
  | d => described name d

end Node

def Datum.describe (d : Datum) : String := String.ofList (Node.described Empty.elim d)

def Datum.label (d : Datum) : String := String.ofList (Node.label Empty.elim d)

end LiveScheme
