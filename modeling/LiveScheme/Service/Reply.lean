import LiveScheme.Machine.Run

/-!
# Replies

A request that succeeds is answered with the printed values and with what was printed on the way;
one that fails is answered with the text of the error. Output of a failed request is dropped.
-/

namespace LiveScheme

inductive Reply
  | result (values : List String) (output : String)
  | error (message : String)
deriving DecidableEq, Repr

namespace Reply

def datum : Reply → Datum
  | result values output =>
    Datum.list [
      Datum.list (.sym "result" :: values.map fun text => Datum.str text),
      Datum.improper [.sym "output"] (Datum.str output)]
  | error message =>
    Datum.list [Datum.list [.sym "error", Datum.improper [.sym "key"] (Datum.str message)]]

def value (r : Reply) : Run Value := Run.ofDatum r.datum

/-- The output stands in as the result of a request without values. -/
def ofValues (m : Machine) (values : List Value) (output : String) : Reply :=
  if values.isEmpty then result [output] output else result (values.map m.write) output

/-- The text of an error or a fault; an exit or an endless run has none, as it is never answered. -/
def messageOf? : Stop → Option String
  | .error e => some e.message
  | .fault f => some f.message
  | .exit _ | .endless => none

/-- Runs a request with its output captured. -/
def capture (x : Run Value) : Run Reply := do
  let (outcome, printed) ← Run.capturing x
  match outcome with
  | .ok v => return ofValues (← get) v.spread printed
  | .error stop =>
    match messageOf? stop with
    | some message => return error message
    | none => throw stop

end Reply

end LiveScheme
