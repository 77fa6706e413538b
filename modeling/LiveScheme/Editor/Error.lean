import LiveScheme.Machine.Run

/-!
# Editor-side errors

What can go wrong between an editor and a server: a reply without the expected shape, a request that
would never be finished, a server that is too old, or one that has gone away.
-/

namespace LiveScheme

inductive EditorError
  | unreadable (quoted reason : String)
  | noEnvelope (quoted : String)
  | noTexts (quoted : String)
  | noText (quoted : String)
  | noBucket (bucket quoted : String)
  | badEntry (described : String)
  | noAutodoc (quoted : String)
  | noDocumentation (quoted : String)
  | incompleteRequest (detail : String)
  | unsupported (version least : String)
  | exited (code : String)
  | connectionClosed
  | transportClosed
deriving DecidableEq, Repr

namespace EditorError

inductive Category
  | protocol
  | unsupported
  | closed
deriving DecidableEq, Repr

def category : EditorError → Category
  | unsupported _ _ => .unsupported
  | exited _ | connectionClosed | transportClosed => .closed
  | _ => .protocol

def message : EditorError → String
  | unreadable quoted reason => "unreadable reply " ++ quoted ++ ": " ++ reason
  | noEnvelope quoted => "not a result envelope: " ++ quoted
  | noTexts quoted => "not a list of strings: " ++ quoted
  | noText quoted => "not a string: " ++ quoted
  | noBucket bucket quoted => "no " ++ bucket ++ " in export listing: " ++ quoted
  | badEntry described => "bad autodoc entry " ++ described
  | noAutodoc quoted => "not an autodoc list: " ++ quoted
  | noDocumentation quoted => "not a documentation reply: " ++ quoted
  | incompleteRequest detail => "incomplete request: " ++ detail
  | unsupported version least => "runtime version " ++ version ++ " is older than " ++ least
  | exited code => "runtime exited with code " ++ code
  | connectionClosed => "runtime closed the connection"
  | transportClosed => "I/O operation on closed file"

end EditorError

/-- How an editor-side operation can end without a result. -/
inductive EditorStop
  | error (e : EditorError)
  | fault (f : Fault)
  | endless
deriving Repr

end LiveScheme
