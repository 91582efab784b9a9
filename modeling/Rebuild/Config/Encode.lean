/-
Settings, modules, tasks and layouts as structured data.

All fields are written, and an option that is not set is written as nothing.  A path is written as its
text; since every path here is text, all of this can be written.

* `Config.toValue`, `Module.toValue`, `Launcher.toValue`, `CompilerCommand.toValue`,
  `RetryPolicy.toValue`, `Task.toValue`, `Layout.toValue`.
-/
import Rebuild.Config
import Rebuild.Task
import Rebuild.Value

set_option autoImplicit false

namespace Rebuild

namespace Value

def path (p : Path) : Value := .str p.text

def paths (ps : List Path) : Value := .list (ps.map path)

def option {α : Type} (f : α → Value) : Option α → Value
  | some a => f a
  | none => .null

end Value

def Relocation.toValue (r : Relocation) : Value :=
  .record [("from", .path r.source), ("to", .path r.target)]

def Module.toValue (m : Module) : Value :=
  .record
    [("name", .str m.name), ("sources", .paths m.sources), ("entries", .paths m.entries),
     ("output_dir", .path m.outputDir), ("artifact", .path m.artifact),
     ("libraries", .paths m.libraries), ("deps", .strs m.deps), ("requires", .strs m.requires),
     ("relocations", .list (m.relocations.map Relocation.toValue))]

def CompilerCommand.toValue (c : CompilerCommand) : Value :=
  .record [("program", .str c.program), ("args", .strs c.args)]

def Launcher.toValue (l : Launcher) : Value :=
  .record [("file", .str l.file), ("path", .path l.path), ("sha256", .option .str l.sha256)]

def RetryPolicy.toValue (r : RetryPolicy) : Value :=
  .record [("attempts", .nat r.attempts), ("initial_delay", .str r.initialDelay.render)]

def Config.toFields (c : Config) : List (String × Value) :=
  [("output_root", .path c.outputRoot), ("resources_dir", .path c.resourcesDir),
   ("tool_artifact", .path c.toolArtifact),
   ("compiler", .option CompilerCommand.toValue c.compiler),
   ("compile_timeout", .option (fun d => .str d.render) c.compileTimeout),
   ("launchers", .list (c.launchers.map Launcher.toValue)),
   ("launcher_base_url", .str c.launcherBaseUrl),
   ("fetch_retry", c.fetchRetry.toValue),
   ("modules", .list (c.modules.map Module.toValue))]

/-- Where the project is, is not written. -/
def Config.toValue (c : Config) : Value := .record c.toFields

/-- Both roots as text.  A root of other bytes could not be written. -/
def Layout.toValue (l : Layout) : Value :=
  .record [("project_root", .path l.projectRoot), ("output_root", .path l.outputRoot)]

def Action.toValue : Action → Value
  | .compile module => .record [("kind", .str "compile"), ("module", .str module)]
  | .copyTree source target =>
    .record [("kind", .str "copy_tree"), ("from", .path source), ("to", .path target)]
  | .copyFiles files into =>
    .record [("kind", .str "copy_files"), ("files", .paths files), ("into", .path into)]

def Task.toValue (t : Task) : Value :=
  .record
    [("name", .str t.name), ("action", t.action.toValue),
     ("depends_on", .strs t.dependsOn.names), ("runs_after", .strs t.runsAfter.names)]

end Rebuild
