import LiveScheme.Repl.CommandLine

/-!
# The server as a program

Serves the standard streams. The runtime sees the files below the working directory and the load
path as they are when a line arrives, and what it appends to them is written back when the line has
been answered.
-/

namespace LiveScheme.Main

def environment : IO Settings := do
  let loadPath ← IO.getEnv "GEISER_STKLOS_LOAD_PATH"
  let logFile ← IO.getEnv "GEISER_STKLOS_LOG_FILE"
  let leastVersion ← IO.getEnv "GEISER_STKLOS_MIN_VERSION"
  let runtimeVersion ← IO.getEnv "GEISER_STKLOS_RUNTIME_VERSION"
  return Settings.ofValues loadPath logFile leastVersion runtimeVersion

/-- The readable files at or below `path`, to a depth; hidden entries are left out. -/
def filesBelow (path : String) : Nat → IO (List (String × String))
  | 0 => return []
  | depth + 1 => do
    let here ← IO.FS.realPath path
    if ← here.isDir then
      let names := (← here.readDir).toList.map (·.fileName)
      let below ← (names.filter (!·.startsWith ".")).mapM fun name =>
        filesBelow (Disk.join path name) depth
      return (Disk.join path "", "") :: below.flatten
    else
      try return [(path, ← IO.FS.readFile here)]
      catch _ => return []

def depthLimit : Nat := 8

/-- The files that the runtime may name, by relative and by absolute path. -/
def snapshot (loadPath : List String) : IO Disk := do
  let home := (← IO.currentDir).toString
  let own ← filesBelow "." depthLimit
  let others ← (home :: loadPath.filter Disk.isAbsolute).mapM fun path =>
    filesBelow path depthLimit
  return Disk.ofFiles (own ++ others.flatten)

def writeBack (old new : Disk) : IO Unit :=
  (new.changedSince old).forM fun file => IO.FS.writeFile file.1 file.2

def exitCode (code : Int) : UInt32 := (code % 256).toNat.toUInt32

/-- Answers the lines of a stream until it ends or the program exits. -/
partial def converse (interactive : Bool) (input output : IO.FS.Stream) (r : Repl) : IO UInt32 := do
  output.putStr (r.duePrompt interactive)
  output.flush
  let line ← input.getLine
  if line.isEmpty then return 0
  let disk ← snapshot r.loadPath
  match Repl.handle engine line { r with machine := { r.machine with disk } } with
  | .ok text r =>
    writeBack disk r.machine.disk
    output.putStr text
    converse interactive input output r
  | .error stop r =>
    writeBack disk r.machine.disk
    match stop with
    | .exit code => return exitCode code.number
    | .fault f => do
      IO.eprintln f.message
      return 1
    | .error e => do
      IO.eprintln e.message
      return 1
    | .endless => return 1

def usage : String :=
  "usage: [--log-file FILE] [--load-path DIRECTORIES] [--runtime-version VERSION] [--no-prompt]"

def run (args : List String) : IO UInt32 := do
  match Arguments.read args with
  | none => do
    IO.eprintln usage
    return 2
  | some a =>
    if a.wantsHelp then
      IO.println usage
      return 0
    let settings ← environment
    let disk ← snapshot settings.loadPath
    match CommandLine.server a settings disk with
    | .error _ => return 1
    | .ok r => do
      writeBack disk r.machine.disk
      converse (!a.noPrompt) (← IO.getStdin) (← IO.getStdout) r

end LiveScheme.Main

def main (args : List String) : IO UInt32 := LiveScheme.Main.run args
