/-
Finding and reading the configuration of a project.

* `Config.ofFile` — reads a file;
* `Config.load` — **the file that was asked for, or the usual one if it is there, or the standard
  settings; then the environment; then the checks**.
-/
import Rebuild.Config.Decode
import Rebuild.Toml.Parser

set_option autoImplicit false

namespace Rebuild.Config

/-- The file that is read if no other is asked for. -/
def fileName : Path := ⟨"xbuild.toml"⟩

def ofText (text : String) : Except String Config :=
  match Toml.parse text with
  | .error e => .error e.message
  | .ok v =>
    match Config.decode .toml v with
    | .error e => .error e.message
    | .ok c => .ok c

def ofFile (fs : FileSystem) (path : Path) : Except ConfigError Config :=
  match fs.readText path with
  | .error e => .error (.read path e)
  | .ok text =>
    match ofText text with
    | .error reason => .error (.parse path reason)
    | .ok c => .ok c

/-- The file to read, if any; one that was asked for has to exist. -/
def choose (fs : FileSystem) (root : Path) : Option Path → Except ConfigError (Option Path)
  | some given =>
    let path := root.join given
    if fs.isFile path then .ok (some path) else .error (.notFound path)
  | none =>
    let path := root.join fileName
    .ok (if fs.isFile path then some path else none)

/-- The checks that every loaded configuration has passed. -/
def check (c : Config) : Except ConfigError Unit := do
  c.checkOutputRoot
  match Module.validate c.modules with
  | .error e => .error (.modules e)
  | .ok _ => .ok ()

def load (fs : FileSystem) (project : Path) (given : Option Path) (env : Environment) :
    Except ConfigError Config :=
  match fs.canonical project with
  | .error e => .error (.projectRoot project e)
  | .ok root => do
    let file ← choose fs root given
    let c ← match file with
      | some path => ofFile fs path
      | none => .ok standard
    let c := applyEnvironment { c with projectRoot := root } env
    check c
    .ok c

end Rebuild.Config
