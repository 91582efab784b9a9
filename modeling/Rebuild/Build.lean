/-
Planning, building and cleaning.

* `Builder`, `Builder.ofConfig` — a configuration with its task graph, checked;
* `Plan`, `Builder.plan` — which modules are stale and what a build would run; **nothing is written**;
* `BuildReport`, `Builder.build` — fetches launchers, runs the plan and packages the launchers.  A
  launcher that cannot be fetched is held against the build only after all tasks ran;
* `Builder.clean` — removes the output;
* `BuildError` — why these fail.
-/
import Rebuild.Config
import Rebuild.Execution
import Rebuild.Placement
import Rebuild.Staleness
import Rebuild.TaskGraph.Resolve

set_option autoImplicit false

namespace Rebuild

inductive BuildError where
  | config (cause : ConfigError)
  | graph (cause : GraphError)
  | task (name : String) (cause : ActionError)
  /-- A launcher could not be fetched; what was compiled stays. -/
  | fetch (cause : FetchError)
  | package (cause : ActionError)
  | clean (path : Path) (cause : IoError)
deriving DecidableEq, Repr

namespace BuildError

def message : BuildError → String
  | .config cause => cause.message
  | .graph cause => cause.message
  | .task name cause => "task " ++ name ++ " failed: " ++ cause.message
  | .fetch cause => "packaging failed: " ++ cause.message
  | .package cause => "packaging failed: " ++ cause.message
  | .clean path cause => "failed to remove " ++ path.text ++ ": " ++ cause.message

/-- The errors behind it, nearest first; errors of configuration and graph stand for themselves. -/
def causes : BuildError → List String
  | .config cause => cause.causes
  | .graph _ => []
  | .task _ cause => cause.message :: cause.causes
  | .fetch cause => cause.message :: cause.causes
  | .package cause => cause.message :: cause.causes
  | .clean _ cause => [cause.message]

end BuildError

/-! ### The task graph -/

/-- Dependencies order compile tasks but do not schedule them: a dependency that is up to date is not
compiled again because something that uses it is stale. -/
def Module.toTask (m : Module) : Task :=
  let task := m.requires.foldl Task.requiring (.free m.taskName (.compile m.name))
  (m.deps.map Module.compileTask).foldl Task.following task

def Config.outlineTask (c : Config) : Task :=
  .free Module.outlineTask (.copyTree c.resourcesDir ⟨"."⟩)

def Config.toolsTask (c : Config) : Task :=
  (Task.free Module.toolsTask (.copyFiles [c.toolArtifact] ⟨"javatools"⟩)).requiring
    Module.outlineTask

/-- The two copying tasks, then one task for each module. -/
def Config.taskList (c : Config) : List Task :=
  c.outlineTask :: c.toolsTask :: c.modules.map Module.toTask

def Config.taskGraph (c : Config) : Except GraphError TaskGraph :=
  TaskGraph.empty.registerAll c.taskList

/-- A configuration whose tasks can be ordered. -/
structure Builder where
  config : Config
  graph : TaskGraph

namespace Builder

def ofConfig (c : Config) : Except BuildError Builder := do
  match c.checkOutputRoot with
  | .error e => .error (.config e)
  | .ok _ =>
    match c.taskGraph with
    | .error e => .error (.graph e)
    | .ok g =>
      match g.validate with
      | .error e => .error (.graph e)
      | .ok _ => .ok ⟨c, g⟩

end Builder

/-! ### Plans -/

structure Plan where
  layout : Layout
  /-- The verdict on every module, in the configured order. -/
  modules : List Staleness
  /-- What will run, in order. -/
  tasks : List Task
deriving DecidableEq, Repr

namespace Plan

def compiledModules (p : Plan) : List String :=
  p.tasks.filterMap fun t => match t.action with
    | .compile module => some module
    | _ => none

def names (p : Plan) : List String := p.tasks.map Task.name

end Plan

namespace Builder

/-- The tasks that a build asks for: the tools always, and each module that is stale. -/
def selection (stale : List Staleness) : List String :=
  Module.toolsTask :: (stale.filter (·.isStale)).map fun s => Module.compileTask s.module

def plan (b : Builder) (fs : FileSystem) : Except BuildError Plan :=
  let layout := b.config.layout
  let modules := b.config.modules.map (Staleness.check · layout fs)
  match b.graph.resolve (selection modules) with
  | .error e => .error (.graph e)
  | .ok tasks => .ok ⟨layout, modules, tasks⟩

/-! ### Running tasks -/

/-- The first output of a dependency that does not exist. -/
def missingOutput? (layout : Layout) (fs : FileSystem) (dep : Module) : Option Path :=
  (dep.outputs.map layout.output).find? fun p => !fs.present p

/-- Everything that a dependency places in the output has to be there. -/
def checkDep (b : Builder) (m : Module) (name : String) : Work Unit :=
  match b.config.module? name with
  | none => throw (.unknownModule name)
  | some dep => fun w =>
    match missingOutput? b.config.layout w.files dep with
    | some p => .error (.missingDependency m.name name p) w
    | none => .ok () w

def checkDeps (b : Builder) (m : Module) : List String → Work Unit
  | [] => pure ()
  | name :: rest => do
    b.checkDep m name
    b.checkDeps m rest

def relocateAll (layout : Layout) : List Relocation → Work Unit
  | [] => pure ()
  | r :: rest => do
    relocate (layout.output r.source) (layout.output r.target)
    relocateAll layout rest

/-- What the compiler is asked to do for a module. -/
def requestFor (layout : Layout) (m : Module) : CompileRequest where
  module := m.name
  entries := m.entries.map layout.source
  libraries := m.libraries.map layout.output
  outputDir := layout.output m.outputDir

def compileModule (b : Builder) (m : Module) : Work Unit := do
  b.checkDeps m m.deps
  discard (compile b.config.compilerCommand (requestFor b.config.layout m) b.config.compileTimeout)
  relocateAll b.config.layout m.relocations

def runTask (b : Builder) (t : Task) : Work Unit :=
  let layout := b.config.layout
  match t.action with
  | .compile name =>
    match b.config.module? name with
    | none => throw (.unknownModule name)
    | some m => b.compileModule m
  | .copyTree source target => discard (copyTree (layout.source source) (layout.output target))
  | .copyFiles files into => discard (copyFiles (files.map layout.source) (layout.output into))

end Builder

/-! ### Builds -/

structure LauncherStatus where
  file : String
  outcome : FetchOutcome
deriving DecidableEq, Repr

structure BuildReport where
  plan : Plan
  execution : Report ActionError
  launchers : List LauncherStatus
  /-- Where the launchers were put. -/
  packaged : List Path

namespace Builder

/-- Makes sure that a launcher is at its place. -/
def fetch (b : Builder) (l : Launcher) (w : World) : Except FetchError FetchOutcome × World :=
  match ensureLauncher l (b.config.layout.source l.path) b.config.launcherBaseUrl b.config.fetchRetry
      w with
  | .ok outcome w => (.ok outcome, w)
  | .error e w => (.error e, w)

/-- What became of one launcher, before what became of the later ones. -/
def note (file : String) : Except FetchError FetchOutcome →
    List LauncherStatus × Option FetchError → List LauncherStatus × Option FetchError
  | .ok outcome, (statuses, failure) => (⟨file, outcome⟩ :: statuses, failure)
  | .error e, (statuses, _) => (statuses, some e)

/-- Tries every launcher in order and keeps the first failure. -/
def obtain (b : Builder) : List Launcher → World → (List LauncherStatus × Option FetchError) × World
  | [], w => (([], none), w)
  | l :: ls, w =>
    let first := b.fetch l w
    let later := b.obtain ls first.2
    (note l.file first.1 later.1, later.2)

/-- Copies the launchers into the output. -/
def package (b : Builder) : Work (List Path) :=
  copyFiles (b.config.launchers.map fun l => b.config.layout.source l.path)
    (b.config.layout.output ⟨"bin"⟩)

def build (b : Builder) : EStateM BuildError World BuildReport := fun w =>
  let ((launchers, fetchFailure), w) := b.obtain b.config.launchers w
  match b.plan w.files with
  | .error e => .error e w
  | .ok plan =>
    let (execution, w) := execute b.runTask plan.tasks w
    match execution.failed with
    | some (name, e) => .error (.task name e) w
    | none =>
      match fetchFailure with
      | some e => .error (.fetch e) w
      | none =>
        match b.package w with
        | .error e w => .error (.package e) w
        | .ok packaged w => .ok ⟨plan, execution, launchers, packaged⟩ w

/-- Removes the output and tells whether there was any. -/
def clean (b : Builder) : EStateM BuildError World Bool := fun w =>
  let root := b.config.layout.outputRoot
  match w.files.removeTree root with
  | .ok fs => .ok true { w with files := fs }
  | .error .notFound => .ok false w
  | .error e => .error (.clean root e) w

end Builder

end Rebuild
