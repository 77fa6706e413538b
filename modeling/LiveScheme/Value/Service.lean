/-!
# Editor services

The procedures that answer an editor's requests, in the order in which a connection binds them, with
their documentation.
-/

namespace LiveScheme

inductive Service
  | eval | loadFile | addToLoadPath | noValues | completions | moduleCompletions
  | moduleExports | autodoc | symbolDocumentation | macroexpand | startLogging
deriving DecidableEq, Repr

namespace Service

def all : List Service := [
  .eval, .loadFile, .addToLoadPath, .noValues, .completions, .moduleCompletions,
  .moduleExports, .autodoc, .symbolDocumentation, .macroexpand, .startLogging]

def name : Service → String
  | eval => "geiser:eval"
  | loadFile => "geiser:load-file"
  | addToLoadPath => "geiser:add-to-load-path"
  | noValues => "geiser:no-values"
  | completions => "geiser:completions"
  | moduleCompletions => "geiser:module-completions"
  | moduleExports => "geiser:module-exports"
  | autodoc => "geiser:autodoc"
  | symbolDocumentation => "geiser:symbol-documentation"
  | macroexpand => "geiser:macroexpand"
  | startLogging => "geiser:start-logging"

def doc : Service → String
  | eval => "(geiser:eval module form) - evaluate form in module, capturing output."
  | loadFile => "(geiser:load-file filename) - load filename, searching the load path."
  | addToLoadPath => "(geiser:add-to-load-path dir) - put dir first on the load path."
  | noValues => "(geiser:no-values) - an empty reply for unsupported requests."
  | completions =>
    "(geiser:completions prefix) - symbols of the current module starting with prefix."
  | moduleCompletions =>
    "(geiser:module-completions prefix) - module names starting with prefix."
  | moduleExports =>
    "(geiser:module-exports module) - exports sorted into procs, syntax and vars."
  | autodoc => "(geiser:autodoc ids [module]) - signatures and values of ids."
  | symbolDocumentation =>
    "(geiser:symbol-documentation name [module]) - signature and docstring of name."
  | macroexpand => "(geiser:macroexpand form [all]) - printed expansion of form."
  | startLogging =>
    "(geiser:start-logging filename) - duplicate every exchange to filename."

end Service

end LiveScheme
