/-
The program: arguments, environment and world in; exit code, printed text and world out.

* `Outcome` — what a run leaves besides the world;
* `runCommand` — carries out one command;
* `runArguments` — **reads the arguments and runs what they ask for**.
-/
import Rebuild.Build.Encode
import Rebuild.CommandLine.Arguments
import Rebuild.CommandLine.Report
import Rebuild.Config.Load
import Rebuild.Json.Printer

set_option autoImplicit false

namespace Rebuild

structure Outcome where
  code : Nat
  stdout : String
  stderr : String
deriving DecidableEq, Inhabited, Repr

namespace Outcome

def text (lines : List String) : String := String.join (lines.map (· ++ "\n"))

def success (lines : List String) : Outcome := ⟨0, text lines, ""⟩

/-- Ends with an error, after lines that were already printed for it. -/
def failure (before : List String) (message : String) (causes : List String) : Outcome :=
  ⟨1, "", text before ++ errorText message causes⟩

/-- Prints structured data; what cannot be written is an error. -/
def ofEncoded : Encoded → Outcome
  | .ok v => success [Json.pretty v]
  | .error e => failure [] "Failed to serialize to JSON" [e.message]

end Outcome

/-! ### Commands -/

def programName : String := "xbuild"

def programVersion : String := "0.1.0"

def runPlan (o : Options) (style : Style) (b : Builder) (w : World) : Outcome × World :=
  match b.plan w.files with
  | .error e => (.failure [] e.message e.causes, w)
  | .ok p =>
    match o.output with
    | .json => (.ofEncoded p.toValue, w)
    | .text => (.success (p.lines style o.verbose), w)

/-- The time from one clock reading to a later one. -/
def elapsedBetween (start stop : Time) : Duration :=
  (Duration.ofParts? 0 (stop.nanos - start.nanos).toNat).getD .zero

def runBuild (o : Options) (style : Style) (b : Builder) (w : World) : Outcome × World :=
  match b.build w with
  | .ok r w' =>
    match o.output with
    | .json => (.ofEncoded r.toValue, w')
    | .text => (.success (r.lines style o.verbose (elapsedBetween w.files.clock w'.files.clock)), w')
  | .error e w' =>
    let before := match o.output with
      | .json => []
      | .text => e.lines style o.verbose
    (.failure before "Build failed" (e.message :: e.causes), w')

def runClean (o : Options) (style : Style) (b : Builder) (w : World) : Outcome × World :=
  let root := b.config.layout.outputRoot
  match b.clean w with
  | .error e w => (.failure [] e.message e.causes, w)
  | .ok removed w =>
    match o.output with
    | .json =>
      (.ofEncoded (.ok (.record [("output_root", .path root), ("removed", .bool removed)])), w)
    | .text => (.success (cleanLines style root removed), w)

def runCommand (command : Command) (o : Options) (env : Config.Environment) (w : World) :
    Outcome × World :=
  match Config.load w.files o.project o.config env with
  | .error e =>
    (.failure [] ("Failed to load configuration for " ++ o.project.text) (e.message :: e.causes), w)
  | .ok c =>
    match Builder.ofConfig c with
    | .error e => (.failure [] e.message e.causes, w)
    | .ok b =>
      let style := Style.ofEnvironment env
      match command with
      | .build => runBuild o style b w
      | .plan => runPlan o style b w
      | .clean => runClean o style b w

/-! ### Help -/

def Command.about : Command → String
  | .build => "Compile stale modules and assemble the distribution"
  | .plan => "Show which modules are stale and the tasks a build would run"
  | .clean => "Remove the output root"

def Command.name : Command → String
  | .build => "build"
  | .plan => "plan"
  | .clean => "clean"

def optionLines : List String :=
  ["  -C, --project <PROJECT>  Project root (default: current directory) [default: .]",
   "      --config <CONFIG>    Config file, relative to the project root (default: xbuild.toml if present)",
   "  -o, --output <OUTPUT>    Output format [default: text] [possible values: text, json]",
   "  -v, --verbose            Enable verbose output",
   "  -h, --help               Print help"]

def helpLines : Option Command → List String
  | some c =>
    [c.about, "", "Usage: " ++ programName ++ " " ++ c.name ++ " [OPTIONS]", "", "Options:"] ++ optionLines
  | none =>
    [programName ++ " - incremental builds for the XDK", "",
     "Usage: " ++ programName ++ " [OPTIONS] <COMMAND>", "", "Commands:",
     "  build  " ++ Command.build.about, "  plan   " ++ Command.plan.about,
     "  clean  " ++ Command.clean.about,
     "  help   Print this message or the help of the given subcommand(s)", "", "Options:"]
      ++ optionLines ++ ["  -V, --version            Print version"]

def runArguments (args : List String) (env : Config.Environment) (w : World) : Outcome × World :=
  match Invocation.ofArguments args with
  | .run command options => runCommand command options env w
  | .version => (.success [programName ++ " " ++ programVersion], w)
  | .help command => (.success (helpLines command), w)
  | .usage reason => (⟨2, "", "error: " ++ reason ++ "\n"⟩, w)

end Rebuild
