import LiveScheme.Repl.Arguments
import LiveScheme.Repl.Basic
import LiveScheme.Settings

/-!
# Running the server from a command line

A session on a terminal: arguments and settings choose the runtime, the input is served, and the
exit code is that of the program, or zero at the end of the input.
-/

namespace LiveScheme.CommandLine

inductive Outcome
  | rejected
  | help
  | finished (code : Int) (written : String) (disk : Disk)
  | failed (stop : Stop)

def server (a : Arguments) (settings : Settings) (disk : Disk) : Except Stop Repl := do
  let version := (Settings.nonEmpty a.runtimeVersion).getD settings.runtimeVersion
  let machine ← (Machine.fresh version disk).mapError .fault
  let loadPath := if a.loadPath.isEmpty then settings.loadPath else a.directories
  Repl.start machine loadPath (a.logFile <|> settings.logFile) Repl.defaultPrompt

def runParsed (g : Engine) (a : Arguments) (settings : Settings) (disk : Disk) (input : String) :
    Outcome :=
  match server a settings disk with
  | .error stop => .failed stop
  | .ok r =>
    match r.serve g (!a.noPrompt) input with
    | (written, .ok _ r) => .finished 0 written r.machine.disk
    | (written, .error (.exit code) r) => .finished code.number written r.machine.disk
    | (_, .error stop _) => .failed stop

def run (g : Engine) (args : List String) (settings : Settings) (disk : Disk) (input : String) :
    Outcome :=
  match Arguments.read args with
  | none => .rejected
  | some a => if a.wantsHelp then .help else runParsed g a settings disk input

end LiveScheme.CommandLine
