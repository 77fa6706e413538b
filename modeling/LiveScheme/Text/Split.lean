/-!
# Splitting and joining texts

A text is split at every occurrence of a character; joining puts a separator between parts.
-/

namespace LiveScheme.Text

/-- The parts between the occurrences of `sep`; a text without one is its own only part. -/
def splitAt (sep : Char) : List Char → List (List Char)
  | [] => [[]]
  | c :: rest =>
    if c = sep then [] :: splitAt sep rest
    else match splitAt sep rest with
      | [] => [[c]]
      | part :: parts => (c :: part) :: parts

def joinWith (sep : List Char) : List (List Char) → List Char
  | [] => []
  | [part] => part
  | part :: parts => part ++ sep ++ joinWith sep parts

def startsWith (start cs : List Char) : Bool := start.isPrefixOf cs

/-- Replaces each character by a text. -/
def escapeWith (image : Char → Option (List Char)) (cs : List Char) : List Char :=
  cs.flatMap fun c => (image c).getD [c]

end LiveScheme.Text
