/-
Modules: named units of source that compile to one artifact.

* `Module`, `Relocation` — what a module is made of, where it goes, and what it needs;
* `Module.taskName`, `Module.outputs` — the task that compiles it, and all it leaves in place;
* `Module.standard` — the modules of the standard distribution, in the order they are compiled;
* `Module.validate` — names are unique, there are entries, dependencies are known and not circular.
-/
import Rebuild.Path
import Rebuild.Digraph

set_option autoImplicit false

namespace Rebuild

/-- A file that is moved once its module is compiled; both places are in the output. -/
structure Relocation where
  source : Path
  target : Path
deriving DecidableEq, Inhabited, Repr

structure Module where
  name : String
  /-- Directories of the project whose newest file decides whether to compile. -/
  sources : List Path
  /-- Files of the project that are handed to the compiler. -/
  entries : List Path
  /-- Directory of the output that the compiler writes to. -/
  outputDir : Path
  /-- The file of the output whose age is compared with the sources. -/
  artifact : Path
  /-- Where the compiler looks for libraries, in order. -/
  libraries : List Path
  /-- Modules whose outputs must exist first. -/
  deps : List String
  /-- Tasks that must run first. -/
  requires : List String
  relocations : List Relocation
deriving DecidableEq, Inhabited, Repr

inductive ModuleError where
  | duplicate (name : String)
  | unknownDependency (module dep : String)
  /-- The modules of a cycle, the first one again at the end. -/
  | cycle (names : List String)
  | noEntries (name : String)
deriving DecidableEq, Repr

def ModuleError.message : ModuleError → String
  | .duplicate name => "duplicate module: " ++ name
  | .unknownDependency module dep => "module " ++ module ++ " depends on unknown module " ++ dep
  | .cycle names => "module dependency cycle: " ++ " -> ".intercalate names
  | .noEntries name => "module " ++ name ++ " has no entry files"

namespace Module

def defaultOutputDir : Path := ⟨"lib"⟩

/-- The task that copies the static part of the output. -/
def outlineTask : String := "copy-outline"

/-- The task that puts the compiler's own archive into the output; it runs in every build. -/
def toolsTask : String := "copy-javatools"

def compileTask (name : String) : String := "compile-" ++ name

def taskName (m : Module) : String := compileTask m.name

/-- What a compiled module leaves in the output. -/
def outputs (m : Module) : List Path :=
  m.artifact :: m.relocations.map Relocation.target

/-! ### The standard distribution -/

def coreLibraries : List Path := [⟨"lib/Ecstasy.xtc"⟩, ⟨"javatools/javatools_bridge.xtc"⟩]

/-- A library of the distribution with its sources in a directory of its own. -/
def library (name dir artifact : String) (deps : List String) (libraries : List Path) : Module where
  name := name
  sources := [⟨dir ++ "/src/main"⟩]
  entries := [⟨dir ++ "/src/main/x/module.x"⟩]
  outputDir := defaultOutputDir
  artifact := ⟨artifact⟩
  libraries := coreLibraries ++ libraries
  deps := deps
  requires := []
  relocations := []

/-- The core library; the native bridge is compiled with it and moved beside the tools. -/
def core : Module where
  name := "ecstasy"
  sources := [⟨"ecstasy/src/main"⟩, ⟨"javatools_bridge/src/main"⟩]
  entries := [⟨"ecstasy/src/main/x/module.x"⟩, ⟨"javatools_bridge/src/main/x/module.x"⟩]
  outputDir := defaultOutputDir
  artifact := ⟨"lib/Ecstasy.xtc"⟩
  libraries := []
  deps := []
  requires := [toolsTask]
  relocations := [⟨⟨"lib/_native.xtc"⟩, ⟨"javatools/javatools_bridge.xtc"⟩⟩]

def standard : List Module :=
  [core,
   library "json" "lib_json" "lib/Json.xtc" ["ecstasy"] [],
   library "oodb" "lib_oodb" "lib/OODB.xtc" ["ecstasy"] [],
   library "jsondb" "lib_jsondb" "lib/JsonDB.xtc" ["json", "oodb"] [⟨"lib/"⟩]]

/-! ### Checks -/

/-- Names are unique and every module has an entry; the first fault counts. -/
def checkEach (seen : List String) : List Module → Except ModuleError Unit
  | [] => .ok ()
  | m :: ms =>
    if seen.contains m.name then .error (.duplicate m.name)
    else if m.entries.isEmpty then .error (.noEntries m.name)
    else checkEach (m.name :: seen) ms

/-- The first dependency that is no module of the list. -/
def unknownDependency? (modules : List Module) : Option (String × String) :=
  modules.findSome? fun m =>
    (m.deps.find? fun dep => !(modules.map Module.name).contains dep).map (m.name, ·)

/-- Each name once, where it stands first. -/
def distinct (seen : List String) : List String → List String
  | [] => []
  | x :: xs => if seen.contains x then distinct seen xs else x :: distinct (x :: seen) xs

/-- Modules as nodes, with an edge from each dependency to the module that has it. -/
def graph (modules : List Module) : Digraph where
  size := modules.length
  edges := modules.zipIdx.flatMap fun (m, v) =>
    (distinct [] m.deps).filterMap fun dep =>
      (modules.findIdx? (·.name == dep)).map (·, v)

/-- The names of a component, latest first, and the first of them again. -/
def cycleNames (modules : List Module) (nodes : List Nat) : List String :=
  let names := nodes.reverse.filterMap fun v => (modules[v]?).map Module.name
  names ++ names.take 1

def validate (modules : List Module) : Except ModuleError Unit := do
  checkEach [] modules
  match unknownDependency? modules with
  | some (name, dep) => .error (.unknownDependency name dep)
  | none =>
    match (graph modules).cyclicComponent? with
    | some nodes => .error (.cycle (cycleNames modules nodes))
    | none => .ok ()

/-- The module of that name. -/
def find? (modules : List Module) (name : String) : Option Module :=
  List.find? (·.name == name) modules

end Module

end Rebuild
