/-
What the commands print.

* `Plan.lines`, `BuildReport.lines`, `cleanLines` — results as text, line by line;
* `BuildError.lines` — a failed build as text;
* `errorText` — how the program ends with an error: the error, then the errors behind it.
-/
import Rebuild.Build
import Rebuild.CommandLine.Style
import Rebuild.Size

set_option autoImplicit false

namespace Rebuild

/-! ### Lines -/

def successLine (s : Style) (message : String) : String := s.green "✓" ++ " " ++ message

def infoLine (s : Style) (message : String) : String := s.blue "•" ++ " " ++ message

def errorLine (s : Style) (message : String) : String := s.red "✗" ++ " " ++ s.red message

def statLine (s : Style) (label value : String) : String := "  " ++ s.dimmed label ++ ": " ++ value

/-! ### Plans -/

def Reason.phrase : Reason → String
  | .artifactMissing => "artifact missing"
  | .sourcesNewer => "sources changed"
  | .upToDate => "up to date"

def timeText : Option Time → String
  | some t => t.calendar
  | none => "-"

def Staleness.lines (s : Style) (verbose : Bool) (m : Staleness) : List String :=
  let mark := if m.isStale then s.yellow "~" else s.green "✓"
  let head := "  " ++ mark ++ " " ++ m.module ++ " " ++ s.dimmed ("(" ++ m.reason.phrase ++ ")")
  if verbose then
    [head, "      sources:  " ++ timeText m.sourceTime, "      artifact: " ++ timeText m.artifactTime]
  else [head]

def Plan.lines (s : Style) (verbose : Bool) (p : Plan) : List String :=
  [statLine s "Project" p.layout.projectRoot.text, statLine s "Output" p.layout.outputRoot.text, "",
   "Modules:"]
    ++ p.modules.flatMap (Staleness.lines s verbose)
    ++ ["", "Tasks:"]
    ++ p.tasks.map (fun t => "  → " ++ t.name)
    ++ ["",
      match p.compiledModules.length with
      | 0 => infoLine s "All modules are up to date"
      | n => infoLine s (toString n ++ " module(s) to compile")]

/-! ### Builds -/

def Status.symbol : Status → String
  | .succeeded => "✓"
  | .failed => "✗"
  | .notRun => "-"

def LauncherStatus.lines (s : Style) (l : LauncherStatus) : List String :=
  match l.outcome with
  | .present => []
  | .downloaded bytes =>
    [infoLine s ("Downloaded " ++ l.file ++ " (" ++ Size.render bytes ++ ")")]

def BuildReport.lines (s : Style) (verbose : Bool) (elapsed : Duration) (r : BuildReport) : List String :=
  r.launchers.flatMap (LauncherStatus.lines s)
    ++ r.execution.tasks.map (fun t => "  " ++ t.2.symbol ++ " " ++ t.1)
    ++ ["", statLine s "Modules compiled" (toString r.plan.compiledModules.length),
      statLine s "Output" r.plan.layout.outputRoot.text]
    ++ (if verbose then r.packaged.map fun p => statLine s "Launcher" p.text else [])
    ++ ["", successLine s ("Build complete in " ++ elapsed.elapsed)]

/-- What the compiler printed is always shown, the errors behind another error only on demand. -/
def BuildError.lines (s : Style) (verbose : Bool) (e : BuildError) : List String :=
  errorLine s e.message ::
    match e with
    | .task _ (.compileFailed _ _ output) => (Text.lines output).map ("    " ++ ·)
    | e => if verbose then e.causes.map ("    caused by: " ++ ·) else []

/-! ### Cleaning -/

def cleanLines (s : Style) (outputRoot : Path) (removed : Bool) : List String :=
  if removed then [successLine s ("Removed " ++ outputRoot.text)]
  else [infoLine s ("Nothing to clean at " ++ outputRoot.text)]

/-! ### Errors -/

/-- Text whose lines after the first are moved in. -/
def hanging (first later text : String) : String :=
  first ++ ("\n" ++ later).intercalate (text.splitOn "\n")

/-- Several causes are numbered. -/
def causeText (numbered : Bool) (index : Nat) (cause : String) : String :=
  if numbered then
    let number := toString index
    hanging (String.ofList (List.replicate (5 - number.length) ' ') ++ number ++ ": ") "       " cause
  else hanging "    " "    " cause

def errorText (message : String) (causes : List String) : String :=
  let numbered := 1 < causes.length
  "Error: " ++ message ++
    (if causes.isEmpty then ""
      else "\n\nCaused by:" ++
        String.join (causes.zipIdx.map fun c => "\n" ++ causeText numbered c.2 c.1)) ++ "\n"

end Rebuild
