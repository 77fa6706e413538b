import LiveScheme.Text.Blank
import LiveScheme.Text.Digit
import LiveScheme.Text.Printable
import LiveScheme.Text.Letter
import LiveScheme.Text.Lines
import LiveScheme.Text.Quoted
import LiveScheme.Decimal.Shortest
import LiveScheme.Number.Literal
import LiveScheme.Number.Basic
import LiveScheme.Datum.Printer
import LiveScheme.Datum.Described
import LiveScheme.Datum.Token
import LiveScheme.Datum.Reader
import LiveScheme.Value.Equality
import LiveScheme.Version
import LiveScheme.Disk
import LiveScheme.Error
import LiveScheme.Machine.Run
import LiveScheme.Evaluator.Expansion
import LiveScheme.Form.Quasiquote
import LiveScheme.Form.Binding
import LiveScheme.Form.Definition
import LiveScheme.Form.Modules
import LiveScheme.Primitive.Call
import LiveScheme.Evaluator.Basic
import LiveScheme.Repl.CommandLine
import LiveScheme.Buffer.Index
import LiveScheme.Editor.Command
import LiveScheme.Editor.Session
import LiveScheme.Editor.Path
import LiveScheme.Editor.Assistant
import LiveScheme.Main
import LiveScheme.Proofs.Repl.Chunks
import LiveScheme.Proofs.Editor.Loopback
import LiveScheme.Proofs.Editor.Streams
import LiveScheme.Proofs.Repl.Recovery
import LiveScheme.Proofs.Machine.Circles
import LiveScheme.Proofs.Machine.Paths
import LiveScheme.Proofs.Machine.Assignment
import LiveScheme.Proofs.Value.Normal
import LiveScheme.Proofs.Layout.Equivalence
import LiveScheme.Proofs.Buffer.Balance
import LiveScheme.Proofs.Reading.Names
import LiveScheme.Proofs.Reading.Spacing
import LiveScheme.Proofs.Reading.DatumComment
import LiveScheme.Proofs.Repl.Brackets
import LiveScheme.Proofs.Editor.Completion
import LiveScheme.Proofs.Editor.Verbatim
import LiveScheme.Proofs.Editor.Malformed
import LiveScheme.Proofs.Mirror.Refusal
import LiveScheme.Proofs.Repl.Guard
import LiveScheme.Proofs.Application.Loop
import LiveScheme.Proofs.Template.Levels
import LiveScheme.Proofs.Template.Pairs
import LiveScheme.Proofs.Expansion.Complete
import LiveScheme.Proofs.Buffer.Positions
import LiveScheme.Proofs.Introspection.Exports
import LiveScheme.Proofs.Buffer.Cursor
import LiveScheme.Proofs.Buffer.Callee
import LiveScheme.Proofs.Editor.Assistance
import LiveScheme.Proofs.Application.Arguments
import LiveScheme.Proofs.Service.LoadPath
import LiveScheme.Proofs.Value.Chains
import LiveScheme.Proofs.Value.Equality
import LiveScheme.Proofs.Version.Numerals
import LiveScheme.Proofs.Editor.Gate
import LiveScheme.Proofs.Value.Numerals
import LiveScheme.Proofs.Buffer.Tiling
