/-
The external compiler.

* `CompilerCommand` — the program and the arguments that come before those of a module;
* `CompileRequest`, `CompilerCommand.arguments` — one module's files, and the arguments they become;
* `compile` — **makes the output directory, starts the program and waits for it**.
-/
import Rebuild.ActionError
import Rebuild.Text.Blank
import Rebuild.World

set_option autoImplicit false

namespace Rebuild

structure CompilerCommand where
  program : String
  args : List String
deriving DecidableEq, Inhabited, Repr

/-- What one run of the compiler works on. -/
structure CompileRequest where
  module : String
  entries : List Path
  libraries : List Path
  outputDir : Path
deriving DecidableEq, Inhabited, Repr

namespace CompilerCommand

/-- The compiler that is shipped as a Java archive. -/
def ofArchive (archive : Path) : CompilerCommand :=
  ⟨"java", ["-Xms1024m", "-Xmx1024m", "-ea", "-cp", archive.text, "org.xvm.tool.Compiler"]⟩

/-- Reads a command line; its words are divided by blanks and nothing quotes them. -/
def parse? (line : String) : Option CompilerCommand :=
  match Text.words line with
  | [] => none
  | program :: args => some ⟨program, args⟩

/-- Libraries keep their order, which is the order they are searched in. -/
def arguments (c : CompilerCommand) (r : CompileRequest) : List String :=
  c.args ++ ["-verbose", "-o", r.outputDir.text]
    ++ r.libraries.flatMap (fun lib => ["-L", lib.text])
    ++ r.entries.map Path.text

end CompilerCommand

/-- What a build does, and how it can fail. -/
abbrev Work (α : Type) := EStateM ActionError World α

/-- A text that ends too early for the system. -/
def holdsNul (s : String) : Bool := s.toList.contains (Char.ofNat 0)

/-- Starts a program, records that it was started and lets it run, as long as its time is not up. -/
def start (program : String) (arguments : List String) (limit : Option Duration) : Work Ending :=
  fun w =>
    if (program :: arguments).any holdsNul then .error (.spawn program .nulInArgument) w
    else match w.program? program with
      | .error e => .error (.spawn program e) w
      | .ok p =>
        let (ending, files) := p.run arguments limit w.files
        .ok ending { w with files := files, started := w.started ++ [arguments] }

/-- What an ending means for the module: all that was printed, or a failure. -/
def judgeEnding (module : String) (limit : Option Duration) : Ending → Except ActionError String
  | .overran => .error (.compileTimeout module (limit.getD .zero))
  | .exited code stdout stderr =>
    let output := Text.decodeLossy stdout ++ Text.decodeLossy stderr
    if code = some 0 then .ok output else .error (.compileFailed module code output)

def compile (command : CompilerCommand) (request : CompileRequest) (limit : Option Duration) :
    Work String := do
  World.onFiles .io (Disk.makeDirectories request.outputDir)
  let ending ← start command.program (command.arguments request) limit
  match judgeEnding request.module limit ending with
  | .ok output => pure output
  | .error e => throw e

end Rebuild
