import LiveScheme.Text.LetterTable

/-!
# Letter case

Upper and lower case of a text in all scripts. One letter may become several, and a capital sigma
becomes the final form exactly at the end of a word.
-/

namespace LiveScheme.Text

def CaseRun.covers (r : CaseRun) (n : Nat) : Bool :=
  r.first ≤ n && n ≤ r.last && (n - r.first) % r.stride == 0

def convert (runs : List CaseRun) (expansions : List (Nat × List Nat)) (c : Char) : List Char :=
  match expansions.lookup c.toNat with
  | some image => image.map Char.ofNat
  | none =>
    match runs.find? (·.covers c.toNat) with
    | some r => [Char.ofNat (c.toNat + r.shift).toNat]
    | none => [c]

def upperChar (c : Char) : List Char := convert upperRuns upperExpansions c

def lowerChar (c : Char) : List Char := convert lowerRuns lowerExpansions c

def upperCase (cs : List Char) : List Char := cs.flatMap upperChar

/-- The nearest character that is not looked through has a case. -/
def meetsCased (cs : List Char) : Bool :=
  match cs.dropWhile (inRanges transparentRanges) with
  | [] => false
  | c :: _ => inRanges casedRanges c

/-- Lower case of a text whose characters before it are `before`, nearest first. -/
def lowerFrom (before : List Char) : List Char → List Char
  | [] => []
  | c :: rest =>
    let image :=
      if c = 'Σ' then
        if meetsCased before && !meetsCased rest then ['ς'] else ['σ']
      else lowerChar c
    image ++ lowerFrom (c :: before) rest

def lowerCase (cs : List Char) : List Char := lowerFrom [] cs

end LiveScheme.Text
