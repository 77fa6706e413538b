import LiveScheme.Fault
import LiveScheme.Text.Split

/-!
# Files

The files that the runtime can see: texts at places below the working directory or the root. A
path is followed component by component, and every component but the last must be a directory.
-/

namespace LiveScheme

/-- The components from the working directory on; a path from the root begins with a slash. -/
abbrev Place := List String

inductive Entry
  | file (text : String)
  | directory

structure Disk where
  files : List (Place × String)
  directories : List Place

namespace Disk

def empty : Disk := ⟨[], []⟩

def isBelow (place other : Place) : Bool := place.length < other.length && place.isPrefixOf other

def isDirectory (d : Disk) (place : Place) : Bool :=
  place.all (· == "..") || place == ["/"] || d.directories.contains place ||
    d.directories.any (isBelow place) || d.files.any (isBelow place ·.1)

def entryAt? (d : Disk) (place : Place) : Option Entry :=
  match d.files.lookup place with
  | some text => some (.file text)
  | none => if d.isDirectory place then some .directory else none

def step (place : Place) (component : String) : Place :=
  if component = "" || component = "." then place
  else if component = ".." then
    if place = ["/"] then place
    else if place.all (· == "..") then place ++ [".."]
    else place.dropLast
  else place ++ [component]

def follow (d : Disk) (place : Place) : List String → Except FileProblem Place
  | [] => .ok place
  | component :: rest =>
    match d.entryAt? place with
    | none => .error .missing
    | some (.file _) => .error .notDirectory
    | some .directory => follow d (step place component) rest

/-- The place that a path names. -/
def locate (d : Disk) (path : String) : Except FileProblem Place :=
  let cs := path.toList
  let components := (Text.splitAt '/' cs).map String.ofList
  if cs.isEmpty then .error .missing
  else if cs.head? = some '/' then d.follow ["/"] components
  else d.follow [] components

def lookup? (d : Disk) (path : String) : Option Entry :=
  match d.locate path with
  | .ok place => d.entryAt? place
  | .error _ => none

def isFile (d : Disk) (path : String) : Bool :=
  match d.lookup? path with
  | some (.file _) => true
  | _ => false

def hasDirectory (d : Disk) (path : String) : Bool :=
  match d.lookup? path with
  | some .directory => true
  | _ => false

def read (d : Disk) (path : String) : Except FileProblem String := do
  match d.entryAt? (← d.locate path) with
  | some (.file text) => return text
  | some .directory => throw .isDirectory
  | none => throw .missing

/-- The files with one text replaced in place, or added when there is no file there. -/
def putIn (place : Place) (text : String) : List (Place × String) → List (Place × String)
  | [] => [(place, text)]
  | file :: rest => if file.1 = place then (place, text) :: rest else file :: putIn place text rest

def put (d : Disk) (place : Place) (text : String) : Disk :=
  { d with files := putIn place text d.files }

def dropFinalSlashes (path : String) : String :=
  String.ofList ((path.toList.reverse.dropWhile (· == '/')).reverse)

/-- Adds to the end of a file, which is made when its directory exists. A path that ends in a slash
never names a file to write to. -/
def append (d : Disk) (path more : String) : Except FileProblem Disk := do
  if path.endsWith "/" then
    let stem := dropFinalSlashes path
    if !stem.isEmpty then
      let _ ← d.locate stem
    throw .isDirectory
  let place ← d.locate path
  match d.entryAt? place with
  | some (.file text) => return d.put place (text ++ more)
  | some .directory => throw .isDirectory
  | none => return d.put place more

/-- The path of a file below a directory. -/
def join (directory file : String) : String :=
  if directory.isEmpty || directory.endsWith "/" then directory ++ file
  else directory ++ "/" ++ file

def isAbsolute (path : String) : Bool := path.startsWith "/"

/-- A disk with the given files; a path that ends in a slash is an empty directory. -/
def ofFiles (files : List (String × String)) : Disk :=
  files.foldl
    (fun d file =>
      let components := (Text.splitAt '/' file.1.toList).map String.ofList
      let place := components.foldl step (if isAbsolute file.1 then ["/"] else [])
      if file.1.endsWith "/" then { d with directories := place :: d.directories }
      else d.put place file.2)
    empty

def pathOf (place : Place) : String := place.foldl join ""

/-- The files of `d` whose text is not the one that they have in `old`, by path. -/
def changedSince (d old : Disk) : List (String × String) :=
  d.files.filterMap fun file =>
    if old.files.lookup file.1 = some file.2 then none else some (pathOf file.1, file.2)

end Disk

end LiveScheme
