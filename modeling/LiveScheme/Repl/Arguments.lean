import LiveScheme.Number.Literal
import LiveScheme.Text.Split

/-!
# Command line of the server

Options may be cut short as long as one option fits, and a value follows its option or an equals
sign. Nothing but options is accepted.
-/

namespace LiveScheme

inductive Flag
  | port | host | logFile | loadPath | runtimeVersion | noPrompt | verbose | help
deriving DecidableEq, Repr

namespace Flag

def spellings : List (String × Flag) := [
  ("-h", help), ("--help", help), ("--port", port), ("--host", host), ("--log-file", logFile),
  ("--load-path", loadPath), ("--runtime-version", runtimeVersion), ("--no-prompt", noPrompt),
  ("-v", verbose), ("--verbose", verbose)]

def takesValue : Flag → Bool
  | port | host | logFile | loadPath | runtimeVersion => true
  | noPrompt | verbose | help => false

end Flag

structure Arguments where
  port : Option Int
  logFile : Option String
  loadPath : List String
  runtimeVersion : Option String
  noPrompt : Bool
  wantsHelp : Bool
deriving Repr

namespace Arguments

def none : Arguments := ⟨.none, .none, [], .none, false, false⟩

/-- What an argument is: a value, an option with the text given along with it, or neither. -/
inductive Shape
  | value
  | option (flag : Flag) (given : Option (List Char))
  | cluster (letters : List Char)
  | unknown

/-- The texts before and after the first equals sign. -/
def splitEquals (cs : List Char) : Option (List Char × List Char) :=
  match cs.dropWhile (· != '=') with
  | [] => .none
  | _ :: rest => some (cs.takeWhile (· != '='), rest)

def isNegativeNumber : List Char → Bool
  | '-' :: rest =>
    let whole := rest.takeWhile Text.isDecimal
    match rest.dropWhile Text.isDecimal with
    | [] => !whole.isEmpty
    | '.' :: fraction => !fraction.isEmpty && fraction.all Text.isDecimal
    | _ => false
  | _ => false

/-- The options whose spelling begins with the text. -/
def completions (cs : List Char) : List Flag :=
  (Flag.spellings.filter fun entry => Text.startsWith cs entry.1.toList).map (·.2)

def longShape (cs : List Char) : Option Shape :=
  let (name, given) := match splitEquals cs with
    | some (name, given) => (name, some given)
    | .none => (cs, .none)
  match completions name with
  | [] => .none
  | [flag] => some (.option flag given)
  | _ => some .unknown

def shortShape : List Char → Option Shape
  | '-' :: c :: rest =>
    if c = 'v' || c = 'h' then some (.cluster (c :: rest)) else .none
  | _ => .none

/-- An option spelled out and the text after its equals sign; what follows a short option there
counts as further short options. -/
def assignment? (cs : List Char) : Option Shape :=
  match splitEquals cs with
  | some (name, given) =>
    match name, Flag.spellings.lookup (String.ofList name), given with
    | ['-', letter], some _, more :: rest => some (.cluster (letter :: more :: rest))
    | _, some flag, given => some (.option flag (some given))
    | _, .none, _ => .none
  | .none => .none

def fallback (cs : List Char) : Shape :=
  if isNegativeNumber cs || cs.contains ' ' then .value else .unknown

def shape (cs : List Char) : Shape :=
  match cs with
  | '-' :: c :: rest =>
    match Flag.spellings.lookup (String.ofList cs) with
    | some flag => .option flag .none
    | .none =>
      match assignment? cs with
      | some found => found
      | .none =>
        if c = '-' then
          if rest.isEmpty then .unknown else (longShape cs).getD (fallback cs)
        else (shortShape cs).getD (fallback cs)
  | _ => .value

def setFlag (a : Arguments) : Flag → Arguments
  | .noPrompt => { a with noPrompt := true }
  | .help => { a with wantsHelp := true }
  | _ => a

def setValue (a : Arguments) (flag : Flag) (value : List Char) : Option Arguments :=
  match flag with
  | .port => (Literal.integer? 10 value).map fun n => { a with port := some n }
  | .logFile => some { a with logFile := some (String.ofList value) }
  | .loadPath => some { a with loadPath := a.loadPath ++ [String.ofList value] }
  | .runtimeVersion => some { a with runtimeVersion := some (String.ofList value) }
  | _ => some a

def setLetters (a : Arguments) (letters : List Char) : Option Arguments :=
  if letters.all fun c => c == 'v' || c == 'h' then
    some { a with wantsHelp := a.wantsHelp || letters.contains 'h' }
  else .none

/-- Reads the arguments one after another; `awaited` is an option that still needs its value. -/
def readFrom (a : Arguments) (awaited : Option Flag) : List String → Option Arguments
  | [] => if awaited.isSome then .none else some a
  | arg :: rest =>
    match awaited, shape arg.toList with
    | some flag, .value => (setValue a flag arg.toList).bind fun a => readFrom a .none rest
    | some _, _ => .none
    | .none, .option flag given =>
      if flag.takesValue then
        match given with
        | some value => (setValue a flag value).bind fun a => readFrom a .none rest
        | .none => readFrom a (some flag) rest
      else if given.isSome then .none
      else
        let a := setFlag a flag
        if a.wantsHelp then some a else readFrom a .none rest
    | .none, .cluster letters =>
      (setLetters a letters).bind fun a => if a.wantsHelp then some a else readFrom a .none rest
    | .none, _ => .none

def read (args : List String) : Option Arguments := readFrom none .none args

/-- The directories of all load path options, without empty ones. -/
def directories (a : Arguments) : List String :=
  (a.loadPath.flatMap fun entry => (Text.splitAt ':' entry.toList).map String.ofList).filter
    (!·.isEmpty)

end Arguments

end LiveScheme
