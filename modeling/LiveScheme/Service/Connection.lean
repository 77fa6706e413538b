import LiveScheme.Machine.Run

/-!
# Connections

An editor's connection has a load path and may have a log of its exchanges. The directory added
last is searched first.
-/

namespace LiveScheme

namespace Connection

/-- The first file of the given name on the load path; an absolute name is taken as it is. -/
def resolve (c : Connection) (d : Disk) (name : String) : Option String :=
  if Disk.isAbsolute name then (if d.isFile name then some name else none)
  else (c.loadPath.map (Disk.join · name)).find? d.isFile

/-- Puts a directory in front of the load path. -/
def addPath (c : Connection) (path : String) : Connection :=
  { c with loadPath := path :: c.loadPath.erase path }

end Connection

namespace Run

def connection (id : Nat) : Run Connection := return (← get).connections.getD id default

def modifyConnection (id : Nat) (f : Connection → Connection) : Run Unit :=
  modify fun m => { m with connections := m.connections.modify id f }

def closeLog (id : Nat) : Run Unit := modifyConnection id fun c => { c with logFile := none }

/-- Appends a text to a file. -/
def appendTo (path text : String) : Run Unit := do
  if path.toList.contains '\x00' then faulty .zeroByteInName
  let m ← get
  match m.disk.append path text with
  | .ok disk => set { m with disk }
  | .error problem => faulty (.file problem (Text.quotedString path))

/-- Closes the log of the connection and begins another one. -/
def startLogging (id : Nat) (path : String) : Run Unit := do
  closeLog id
  appendTo path ""
  modifyConnection id fun c => { c with logFile := some path }

def openConnection (loadPath : List String) (logFile : Option String) : Run Nat := do
  let id ← modifyGet fun m =>
    (m.connections.size, { m with connections := m.connections.push ⟨loadPath, none⟩ })
  match logFile with
  | some path => if path.isEmpty then pure () else startLogging id path
  | none => pure ()
  return id

def withoutFeeds (text : String) : String :=
  String.ofList (Text.dropEnd (· == '\n') text.toList)

/-- Writes a request and its reply to the log, a blank line after them. -/
def logExchange (id : Nat) (request reply : String) : Run Unit := do
  match (← connection id).logFile with
  | some path =>
    appendTo path (withoutFeeds request ++ "\n" ++ withoutFeeds reply ++ "\n\n")
  | none => pure ()

/-- Binds the services of a connection in the base module and exports them. -/
def bindServices (id : Nat) : List Service → Run Unit
  | [] => return ()
  | service :: rest => do
    define service.name (.primitive (.service id service)) (.ofModule Machine.schemeId)
    exportNames Machine.schemeId [service.name]
    bindServices id rest

def installServices (id : Nat) : Run Unit := bindServices id Service.all

end Run

end LiveScheme
