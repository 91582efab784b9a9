/-
Why a task fails.

* `ActionError`, `ActionError.message` — the causes and their wording;
* `ActionError.causes` — the errors behind an error, nearest first.
-/
import Rebuild.FileSystem
import Rebuild.Duration

set_option autoImplicit false

namespace Rebuild

inductive ActionError where
  /-- The compiler ended with a failure; `output` is all it printed. -/
  | compileFailed (module : String) (code : Option Int) (output : String)
  | compileTimeout (module : String) (limit : Duration)
  | spawn (program : String) (cause : IoError)
  /-- Something that a dependency should have left in the output is not there. -/
  | missingDependency (module dep : String) (path : Path)
  | missingRelocation (source : Path)
  | missingInput (path : Path)
  | unknownModule (name : String)
  | io (cause : IoError)
deriving DecidableEq, Repr

namespace ActionError

def codeText : Option Int → String
  | some n => "Some(" ++ toString n ++ ")"
  | none => "None"

def message : ActionError → String
  | .compileFailed module code _ =>
    "compiling " ++ module ++ " failed with exit code " ++ codeText code
  | .compileTimeout module limit => "compiling " ++ module ++ " timed out after " ++ limit.render
  | .spawn program cause => "failed to spawn compiler " ++ program ++ ": " ++ cause.message
  | .missingDependency module dep path =>
    "module " ++ module ++ " requires " ++ dep ++ ", but " ++ path.text ++ " does not exist"
  | .missingRelocation source => "cannot relocate " ++ source.text ++ ": file not produced"
  | .missingInput path => "missing input file: " ++ path.text
  | .unknownModule name => "unknown module: " ++ name
  | .io cause => "io error: " ++ cause.message

def causes : ActionError → List String
  | .spawn _ cause => [cause.message]
  | .io cause => cause.message :: cause.causes
  | _ => []

end ActionError

end Rebuild
