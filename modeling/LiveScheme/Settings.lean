import LiveScheme.Text.Blank
import LiveScheme.Text.Split

/-!
# Settings

What a user sets from outside: the load path, the log file, the least version that an editor
accepts, and the version that the runtime reports. An empty setting counts as none.
-/

namespace LiveScheme

structure Settings where
  loadPath : List String
  logFile : Option String
  leastVersion : String
  runtimeVersion : String

namespace Settings

def defaultRuntimeVersion : String := "2.10"

def nonEmpty (value : Option String) : Option String := value.filter (!·.isEmpty)

/-- The trimmed entries of a list of directories that are not blank. -/
def directories (text : String) : List String :=
  ((Text.splitAt ':' text.toList).map Text.trim).filterMap fun cs =>
    if cs.isEmpty then none else some (String.ofList cs)

/-- The settings for given values of the load path, the log file, the least version and the
runtime's version. -/
def ofValues (loadPath logFile leastVersion runtimeVersion : Option String) : Settings where
  loadPath := ((nonEmpty loadPath).map directories).getD []
  logFile := nonEmpty logFile
  leastVersion := (nonEmpty leastVersion).getD "1.50"
  runtimeVersion := (nonEmpty runtimeVersion).getD defaultRuntimeVersion

/-- The last component of a path, without the components that mean nothing. -/
def baseName (path : String) : List Char :=
  (((Text.splitAt '/' path.toList).filter fun part => part != [] && part != ['.']).getLast?).getD []

/-- What follows the last dot of a name, when that dot is neither its first nor its last
character. -/
def extension (name : List Char) : List Char :=
  let tail := name.reverse.takeWhile (· != '.')
  if tail.isEmpty || name.length ≤ tail.length + 1 then [] else tail.reverse

/-- Whether the path names a source file of the runtime. -/
def isSourceFile (path : String) : Bool :=
  let ext := String.ofList (extension (baseName path))
  ext == "stk" || ext == "stklos"

end Settings

end LiveScheme
