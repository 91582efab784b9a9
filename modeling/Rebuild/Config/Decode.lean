/-
Settings, modules and tasks from structured data.

* `Config.decode` — **fields that are not given keep their standard value**, fields that do not exist
  are refused; where the project is, is not a setting;
* `Module.decode`, `Launcher.decode`, `CompilerCommand.decode`, `RetryPolicy.decode`, `Task.decode` —
  the parts.
-/
import Rebuild.Config
import Rebuild.Record
import Rebuild.Task

set_option autoImplicit false

namespace Rebuild

open Read

def Relocation.fieldNames : List String := ["from", "to"]

def Relocation.decode (format : Format) : Read Relocation := fun v => do
  let f ← Fields.of format Relocation.fieldNames v
  let source ← f.required "from" path
  let target ← f.required "to" path
  .ok ⟨source, target⟩

def Module.fieldNames : List String :=
  ["name", "sources", "entries", "output_dir", "artifact", "libraries", "deps", "requires",
   "relocations"]

def Module.decode (format : Format) : Read Module := fun v => do
  let f ← Fields.of format Module.fieldNames v
  let name ← f.required "name" text
  let sources ← f.required "sources" (items path)
  let entries ← f.required "entries" (items path)
  let outputDir ← f.withDefault "output_dir" path Module.defaultOutputDir
  let artifact ← f.required "artifact" path
  let libraries ← f.withDefault "libraries" (items path) []
  let deps ← f.withDefault "deps" (items text) []
  let requires ← f.withDefault "requires" (items text) []
  let relocations ← f.withDefault "relocations" (items (Relocation.decode format)) []
  .ok ⟨name, sources, entries, outputDir, artifact, libraries, deps, requires, relocations⟩

def CompilerCommand.fieldNames : List String := ["program", "args"]

def CompilerCommand.decode (format : Format) : Read CompilerCommand := fun v => do
  let f ← Fields.of format CompilerCommand.fieldNames v
  let program ← f.required "program" text
  let args ← f.withDefault "args" (items text) []
  .ok ⟨program, args⟩

def Launcher.fieldNames : List String := ["file", "path", "sha256"]

def Launcher.decode (format : Format) : Read Launcher := fun v => do
  let f ← Fields.of format Launcher.fieldNames v
  let file ← f.required "file" text
  let place ← f.required "path" Read.path
  let sha256 ← f.withDefault "sha256" (optional text) none
  .ok ⟨file, place, sha256⟩

def RetryPolicy.fieldNames : List String := ["attempts", "initial_delay"]

def RetryPolicy.decode (format : Format) : Read RetryPolicy := fun v => do
  let f ← Fields.of format RetryPolicy.fieldNames v
  let attempts ← f.required "attempts" count32
  let initialDelay ← f.required "initial_delay" span
  .ok ⟨attempts.1, initialDelay, attempts.2⟩

def Config.fieldNames : List String :=
  ["output_root", "resources_dir", "tool_artifact", "compiler", "compile_timeout", "launchers",
   "launcher_base_url", "fetch_retry", "modules"]

def Config.decode (format : Format) : Read Config := fun v => do
  let f ← Fields.ofStrict format Config.fieldNames v
  let d := Config.standard
  let outputRoot ← f.withDefault "output_root" path d.outputRoot
  let resourcesDir ← f.withDefault "resources_dir" path d.resourcesDir
  let toolArtifact ← f.withDefault "tool_artifact" path d.toolArtifact
  let compiler ← f.withDefault "compiler" (optional (CompilerCommand.decode format)) d.compiler
  let compileTimeout ← f.withDefault "compile_timeout" (optional span) d.compileTimeout
  let launchers ← f.withDefault "launchers" (items (Launcher.decode format)) d.launchers
  let launcherBaseUrl ← f.withDefault "launcher_base_url" text d.launcherBaseUrl
  let fetchRetry ← f.withDefault "fetch_retry" (RetryPolicy.decode format) d.fetchRetry
  let modules ← f.withDefault "modules" (items (Module.decode format)) d.modules
  .ok ⟨d.projectRoot, outputRoot, resourcesDir, toolArtifact, compiler, compileTimeout, launchers,
    launcherBaseUrl, fetchRetry, modules⟩

/-! ### Tasks -/

/-- The field `kind` tells which action it is. -/
def Action.decode : Read Action
  | .record fields => do
    let f : Fields := fields
    match ← f.required "kind" text with
    | "compile" =>
      let name ← f.required "module" text
      .ok (.compile name)
    | "copy_tree" =>
      let source ← f.required "from" path
      let target ← f.required "to" path
      .ok (.copyTree source target)
    | "copy_files" =>
      let files ← f.required "files" (items path)
      let into ← f.required "into" path
      .ok (.copyFiles files into)
    | other => .error (.unknownVariant other)
  | v => .error (.invalidType v.kind "an action")

def nameSet : Read NameSet := fun v => (items text v).map NameSet.ofList

def Task.fieldNames : List String := ["name", "action", "depends_on", "runs_after"]

def Task.decode (format : Format) : Read Task := fun v => do
  let f ← Fields.of format Task.fieldNames v
  let name ← f.required "name" text
  let action ← f.required "action" Action.decode
  let dependsOn ← f.withDefault "depends_on" nameSet .empty
  let runsAfter ← f.withDefault "runs_after" nameSet .empty
  .ok ⟨name, action, dependsOn, runsAfter⟩

end Rebuild
