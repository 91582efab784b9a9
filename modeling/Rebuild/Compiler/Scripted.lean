/-
A compiler that does what its entry files say, for rehearsing builds without a real one.

Each line of an entry is a word and, after one blank, the rest.  Arguments up to `-verbose` are not
looked at.

* `Scripted.Instruction` — what a line asks for;
* `Scripted.Job` — output directory and entries, read from the arguments;
* `Scripted.program` — the compiler.
-/
import Rebuild.Text.Blank
import Rebuild.World

set_option autoImplicit false

namespace Rebuild.Scripted

inductive Instruction where
  /-- Write a compiled module of that name. -/
  | module (name : String)
  /-- Write a file of that name. -/
  | emit (name : String)
  /-- Date the files written from now on. -/
  | stamp (seconds : Int)
  | out (line : String)
  | err (line : String)
  | raw (bytes : Bytes)
  | exit (code : Int)
  /-- End as if killed. -/
  | abort
  /-- Take ten seconds. -/
  | sleep
  | idle
deriving DecidableEq, Inhabited

/-- A line as a word and what follows the first blank. -/
def Instruction.ofLine (line : String) : Instruction :=
  let (word, rest) := line.toList.span (· ≠ ' ')
  let rest := String.ofList (rest.drop 1)
  match String.ofList word with
  | "module" => .module rest
  | "emit" => .emit rest
  | "stamp" => (Text.trim rest).toInt?.elim .idle .stamp
  | "out" => .out rest
  | "err" => .err rest
  | "raw" => .raw ((Text.ofHex? rest).getD [])
  | "exit" => (Text.trim rest).toInt?.elim .idle .exit
  | "abort" => .abort
  | "sleep" => .sleep
  | _ => .idle

/-! ### Arguments -/

structure Job where
  outputDir : Path
  entries : List Path
deriving DecidableEq, Inhabited

def Job.read (job : Job) : List String → Job
  | "-o" :: dir :: rest => Job.read { job with outputDir := ⟨dir⟩ } rest
  | "-L" :: _ :: rest => Job.read job rest
  | entry :: rest => Job.read { job with entries := job.entries ++ [⟨entry⟩] } rest
  | [] => job

def Job.ofArguments (arguments : List String) : Job :=
  Job.read ⟨⟨"."⟩, []⟩ ((arguments.dropWhile (· ≠ "-verbose")).drop 1)

/-! ### Running -/

structure Run where
  files : FileSystem
  time : Time
  stdout : Bytes
  stderr : Bytes
  /-- Nanoseconds spent so far. -/
  spent : Nat
  /-- How it ended, once it has. -/
  ending : Option Ending

def newline : Bytes := [10]

/-- Writes a file under the output directory; what cannot be written is left out. -/
def Run.write (r : Run) (job : Job) (name text : String) : Run :=
  let dest := job.outputDir.join ⟨name⟩
  let make : Disk Unit := do
    match dest.parent? with
    | some parent => Disk.makeDirectories parent
    | none => pure ()
    Disk.change (·.writeFile dest ⟨Text.encode text, r.time, false⟩)
  match make r.files with
  | .ok _ fs => { r with files := fs }
  | .error _ fs => { r with files := fs }

def Run.exitWith (r : Run) (code : Option Int) : Run :=
  { r with ending := some (.exited code r.stdout r.stderr) }

/-- How long a sleep takes, in nanoseconds. -/
def sleepTime : Nat := 10000000000

/-- Takes time; when the limit is reached, the run is over. -/
def Run.spend (r : Run) (limit : Option Duration) (nanos : Nat) : Run :=
  match limit with
  | some d =>
    if d.toNanos < r.spent + nanos then
      { r with files := r.files.elapse (d.toNanos - r.spent), spent := d.toNanos, ending := some .overran }
    else { r with files := r.files.elapse nanos, spent := r.spent + nanos }
  | none => { r with files := r.files.elapse nanos, spent := r.spent + nanos }

def Run.step (r : Run) (job : Job) (limit : Option Duration) (line : String) : Run :=
  if r.ending.isSome then r
  else match Instruction.ofLine line with
    | .module name => r.write job (name ++ ".xtc") name
    | .emit name => r.write job name name
    | .stamp seconds => { r with time := .ofParts seconds 0 }
    | .out line => { r with stdout := r.stdout ++ Text.encode line ++ newline }
    | .err line => { r with stderr := r.stderr ++ Text.encode line ++ newline }
    | .raw bytes => { r with stdout := r.stdout ++ bytes }
    | .exit code => r.exitWith (some (code % 256))
    | .abort => r.exitWith none
    | .sleep => r.spend limit sleepTime
    | .idle => r

def Run.entry (r : Run) (job : Job) (limit : Option Duration) (entry : Path) : Run :=
  if r.ending.isSome then r
  else match r.files.readFile entry with
    | .ok data => (Text.lines (Text.decodeLossy data.bytes)).foldl (fun r line => r.step job limit line) r
    | .error _ =>
      { r with stderr := r.stderr ++ Text.encode ("cannot read " ++ entry.text) ++ newline }.exitWith
        (some 2)

/-- How long it takes until the compiler reads its arguments. -/
def startupTime : Duration := .ofMillis 1

def program : Program where
  run arguments limit files :=
    let job := Job.ofArguments arguments
    let fresh : Run := ⟨files, .ofParts 2000 0, [], [], 0, none⟩
    let ready := fresh.spend limit startupTime.toNanos
    let r := job.entries.foldl (fun r entry => r.entry job limit entry) ready
    (r.ending.getD (.exited (some 0) r.stdout r.stderr), r.files)

end Rebuild.Scripted
