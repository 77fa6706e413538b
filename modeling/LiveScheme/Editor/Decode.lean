import LiveScheme.Datum.Described
import LiveScheme.Datum.Reader
import LiveScheme.Editor.Error

/-!
# Decoding replies

Replies are read as data and taken apart as association lists, whose entries are found by the label
of their first element. A reply that cannot be read or has not the expected shape is an error of the
protocol.
-/

namespace LiveScheme

abbrev Decoded := Except EditorStop

namespace Decode

def protocol {α : Type} (e : EditorError) : Decoded α := .error (.error e)

def faulty {α : Type} (f : Fault) : Decoded α := .error (.fault f)

def parse (text : String) : Decoded Datum :=
  match Datum.readOne text with
  | .ok d => .ok d
  | .error (.fault f) => faulty f
  | .error e => protocol (.unreadable (Text.quotedString text) e.message)

/-- The label that an entry is found by. -/
def key? : Datum → Option String
  | .improper (x :: _) _ => some x.label
  | .list (x :: _) | .vector (x :: _) =>
    match x with
    | .list _ | .vector _ | .improper _ _ => none
    | x => some x.label
  | _ => none

/-- What follows the first element of an entry. -/
def rest (d : Datum) : Datum :=
  match d with
  | .improper (_ :: x :: more) tail => Datum.improper (x :: more) tail
  | .improper _ tail => tail
  | .list items | .vector items => Datum.list (items.drop 1)
  | d => d

def labelled? (d : Datum) (key : String) : Option Datum :=
  (d.elements?).bind fun items => items.find? fun x => key? x == some key

/-- The parts that a datum is walked through by: elements, characters, or the elements of an
improper list taken together and then its tail. -/
def parts : Datum → Except Fault (List Datum)
  | .list items | .vector items => .ok items
  | .str text => .ok (text.toList.map fun c => Datum.str (String.singleton c))
  | .char c => .ok [Datum.str (String.singleton c)]
  | .improper items tail => .ok [Datum.list items, tail]
  | _ => .error (.noElements "datum")

def partsOf (d : Datum) : Decoded (List Datum) := (parts d).mapError .fault

/-- The name that an item stands for: its own label, or that of its first element. -/
def nameOf (d : Datum) : String :=
  match d.elements? with
  | some (x :: _) => Datum.label x
  | _ => d.label

def names (d : Datum) : Decoded (List String) := do return (← partsOf d).map nameOf

def isText (d : Datum) : Bool := d.text?.isSome

end Decode

inductive EvalReply
  | result (values : List String) (output : String)
  | error (message : String)
deriving DecidableEq, Repr

def EvalReply.value : EvalReply → String
  | result values _ => values.headD ""
  | error _ => ""

structure ModuleExports where
  modules : List String
  procs : List String
  keywords : List String
  vars : List String
deriving DecidableEq, Repr

/-- A part of an entry: nothing, a text, several texts, or a datum of another shape. -/
inductive Part
  | absent
  | text (s : String)
  | texts (ss : List String)
  | datum (d : Datum)

structure AutodocEntry where
  name : Part
  required : List String
  optional : List String
  key : List String
  home : Part
  value : Part
  hidesLabel : Bool

structure SymbolDoc where
  signature : Option AutodocEntry
  docstring : Part

namespace Part

def allTexts : List Datum → Option (List String)
  | [] => some []
  | .str s :: rest => (allTexts rest).map (s :: ·)
  | _ => none

def ofDatum (d : Datum) : Part :=
  match d with
  | .str s => text s
  | .list items =>
    match allTexts items with
    | some ss => texts ss
    | none => datum d
  | d => datum d

def isAbsent : Part → Bool
  | absent => true
  | _ => false

/-- The text that stands for the part in a label. -/
def shown : Part → String
  | absent => "None"
  | text s => s
  | texts ss => (Datum.list (ss.map fun s => Datum.str s)).describe
  | datum d => d.label

/-- A part that has to be a text. -/
def requireText : Part → Except Fault String
  | text s => .ok s
  | _ => .error .badOperand

end Part

namespace AutodocEntry

def named (name : String) : AutodocEntry := ⟨.text name, [], [], [], .absent, .absent, false⟩

def args (e : AutodocEntry) : List String := e.required ++ e.optional ++ e.key

def hasArgs (e : AutodocEntry) : Bool := !e.args.isEmpty

/-- The call pattern that an editor shows; an entry whose name is no text has none. -/
def label (e : AutodocEntry) : Except Fault String :=
  match e.name, e.hidesLabel with
  | .text name, false => .ok ("(" ++ " ".intercalate (name :: e.args) ++ ")")
  | _, _ => .error .badOperand

/-- Sets the section of the given title; sections of other titles are accepted and not kept. -/
def setSection (e : AutodocEntry) (title : String) (names : List String) :
    Except Fault AutodocEntry :=
  match title with
  | "name" => .ok { e with name := .texts names }
  | "required" => .ok { e with required := names }
  | "optional" => .ok { e with optional := names }
  | "key" => .ok { e with key := names }
  | "module" => .ok { e with home := .texts names }
  | "value" => .ok { e with value := .texts names }
  | "label" => .ok { e with hidesLabel := true }
  | "has_args" | "__weakref__" => .error (.noSection title)
  | "__class__" | "__dict__" => .error .badOperand
  | _ => .ok e

end AutodocEntry

namespace Decode

def errorOf (d : Datum) : Option EvalReply :=
  (labelled? d "error").map fun entry =>
    match labelled? (rest entry) "key" with
    | some message => .error (rest message).label
    | none => .error ""

def evalReply (text : String) : Decoded EvalReply := do
  let d ← parse text
  match errorOf d with
  | some reply => return reply
  | none =>
    match labelled? d "result", labelled? d "output" with
    | some result, some output =>
      let values ← partsOf (rest result)
      let out := rest output
      return .result (values.map (·.label)) (if isText out then out.label else "")
    | _, _ => protocol (.noEnvelope (Text.quotedString text))

def strings (text : String) : Decoded (List String) := do
  match (← parse text).elements? with
  | some items =>
    if items.all isText then return items.map Datum.label
    else protocol (.noTexts (Text.quotedString text))
  | none => protocol (.noTexts (Text.quotedString text))

def string (text : String) : Decoded String := do
  let d ← parse text
  if isText d then return d.label else protocol (.noText (Text.quotedString text))

def bucket (text : String) (d : Datum) (title : String) : Decoded (List String) :=
  match labelled? d title with
  | some entry => names (rest entry)
  | none => protocol (.noBucket title (Text.quotedString text))

def moduleExports (text : String) : Decoded ModuleExports := do
  let d ← parse text
  let modules ← bucket text d "modules"
  let procs ← bucket text d "procs"
  let keywords ← bucket text d "syntax"
  return ⟨modules, procs, keywords, ← bucket text d "vars"⟩

def setSections (e : AutodocEntry) : List Datum → Decoded AutodocEntry
  | [] => .ok e
  | d :: more =>
    match key? d with
    | none => faulty .badOperand
    | some title => do
      let items ← names (rest d)
      setSections (← (e.setSection title items).mapError .fault) more

/-- The element after the first one of an entry; the tail takes its place in an improper one. -/
def second? : Datum → Option Datum
  | .improper _ tail => some tail
  | .list (_ :: x :: _) | .vector (_ :: x :: _) => some x
  | _ => none

def withArgs (e : AutodocEntry) (props : Datum) : Decoded AutodocEntry :=
  match (labelled? props "args").bind second? with
  | some sections => do setSections e (← partsOf sections)
  | none => .ok e

def withHome (e : AutodocEntry) (props : Datum) : AutodocEntry :=
  match (labelled? props "module").bind second? with
  | some home => { e with home := .text home.label }
  | none => e

def withValue (e : AutodocEntry) (props : Datum) : AutodocEntry :=
  match labelled? props "value" with
  | some entry => { e with value := .ofDatum (rest entry) }
  | none => e

def autodocEntry (d : Datum) : Decoded AutodocEntry :=
  match d.elements? with
  | some (name :: props) => do
    let props := Datum.list props
    let e ← withArgs (.named (Datum.label name)) props
    return withValue (withHome e props) props
  | _ => protocol (.badEntry d.describe)

def autodocEntries : List Datum → Decoded (List AutodocEntry)
  | [] => .ok []
  | d :: more => do
    let e ← autodocEntry d
    return e :: (← autodocEntries more)

def autodoc (text : String) : Decoded (List AutodocEntry) := do
  match (← parse text).elements? with
  | some items => autodocEntries items
  | none => protocol (.noAutodoc (Text.quotedString text))

def isEmptyText : Datum → Bool
  | .str s => s.isEmpty
  | _ => false

def signature? (d : Datum) : Decoded (Option AutodocEntry) :=
  match d.elements? with
  | some (_ :: _) => do return some (← autodocEntry d)
  | _ => .ok none

/-- Documentation of a name; none when it is unbound. -/
def symbolDocumentation (text : String) : Decoded (Option SymbolDoc) := do
  let d ← parse text
  if isEmptyText d then return none
  match labelled? d "signature", labelled? d "docstring" with
  | some sig, some doc =>
    let signature ← signature? (rest sig)
    return some ⟨signature, .ofDatum (rest doc)⟩
  | _, _ => protocol (.noDocumentation (Text.quotedString text))

end Decode

end LiveScheme
