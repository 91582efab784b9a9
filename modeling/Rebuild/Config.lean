/-
What a build has to know.

* `Config`, `Config.standard` — all settings, and the values they have if nobody says otherwise;
* `Config.layout`, `Config.compilerCommand`, `Config.module?` — what follows from them;
* `Config.checkOutputRoot` — **the output may not contain the project**, since cleaning removes it;
* `Config.applyEnvironment` — settings that the environment overrides;
* `ConfigError` — what can be wrong with a configuration.
-/
import Rebuild.Compiler
import Rebuild.Launcher
import Rebuild.Layout
import Rebuild.Module

set_option autoImplicit false

namespace Rebuild

structure Config where
  projectRoot : Path
  /-- Where the output goes, as seen from the project. -/
  outputRoot : Path
  /-- The directory that is copied as it is. -/
  resourcesDir : Path
  /-- The compiler's own archive. -/
  toolArtifact : Path
  /-- The compiler; the one in the archive if there is none. -/
  compiler : Option CompilerCommand
  compileTimeout : Option Duration
  launchers : List Launcher
  launcherBaseUrl : String
  fetchRetry : RetryPolicy
  modules : List Module
deriving DecidableEq, Repr

inductive ConfigError where
  | projectRoot (path : Path) (cause : IoError)
  | notFound (path : Path)
  | read (path : Path) (cause : IoError)
  /-- The file is no configuration; `reason` says why. -/
  | parse (path : Path) (reason : String)
  | outputCoversProject (outputRoot projectRoot : Path)
  | modules (cause : ModuleError)
deriving DecidableEq, Repr

namespace ConfigError

def message : ConfigError → String
  | .projectRoot path cause =>
    "project root " ++ path.text ++ " is not accessible: " ++ cause.message
  | .notFound path => "config file not found: " ++ path.text
  | .read path cause => "failed to read " ++ path.text ++ ": " ++ cause.message
  | .parse path reason => "invalid config " ++ path.text ++ ": " ++ reason
  | .outputCoversProject output project =>
    "output root " ++ output.text ++ " contains the project root " ++ project.text
  | .modules cause => "invalid module list: " ++ cause.message

def causes : ConfigError → List String
  | .projectRoot _ cause => [cause.message]
  | .read _ cause => [cause.message]
  | .parse _ reason => [reason]
  | .modules cause => [cause.message]
  | _ => []

end ConfigError

namespace Config

def standardLauncher (file : String) : Launcher :=
  ⟨file, Path.join ⟨"javatools_launcher/build/exe"⟩ ⟨file⟩, none⟩

def standard : Config where
  projectRoot := ⟨"."⟩
  outputRoot := ⟨"build/xdk"⟩
  resourcesDir := ⟨"xdk/src/main/resources/xdk"⟩
  toolArtifact := ⟨"javatools/build/libs/javatools.jar"⟩
  compiler := none
  compileTimeout := none
  launchers := [standardLauncher "macos_launcher", standardLauncher "windows_launcher.exe"]
  launcherBaseUrl := "https://github.com/Goju-Ryu/xvm/releases/latest/download"
  fetchRetry := .standard
  modules := Module.standard

instance : Inhabited Config := ⟨standard⟩

def layout (c : Config) : Layout :=
  Layout.ofRoots c.projectRoot (c.projectRoot.join c.outputRoot)

def compilerCommand (c : Config) : CompilerCommand :=
  c.compiler.getD (.ofArchive (c.projectRoot.join c.toolArtifact))

def module? (c : Config) (name : String) : Option Module := Module.find? c.modules name

def checkOutputRoot (c : Config) : Except ConfigError Unit :=
  if c.layout.outputCoversProject then
    .error (.outputCoversProject c.layout.outputRoot c.layout.projectRoot)
  else .ok ()

/-! ### Environment -/

/-- Variables of the environment by name. -/
abbrev Environment := List (String × String)

def outputVariable : String := "XBUILD_OUTPUT"

def compilerVariable : String := "XBUILD_COMPILER"

/-- Blank variables change nothing. -/
def applyEnvironment (c : Config) (env : Environment) : Config :=
  let outputRoot := match env.lookup outputVariable with
    | some text => if (Text.trim text).isEmpty then c.outputRoot else ⟨text⟩
    | none => c.outputRoot
  let compiler := match (env.lookup compilerVariable).bind CompilerCommand.parse? with
    | some command => some command
    | none => c.compiler
  { c with outputRoot := outputRoot, compiler := compiler }

end Config

end Rebuild
