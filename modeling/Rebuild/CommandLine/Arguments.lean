/-
The arguments of the command line.

Options may stand before and after the command; after it they count more.  Each may be given once on
either side.

* `Command`, `Options` — what to do, and how;
* `Invocation` — what the arguments ask for; `usage` stands for arguments that make no sense;
* `Invocation.ofArguments` — reads them from left to right; **the first fault ends it**.
-/
import Rebuild.Path

set_option autoImplicit false

namespace Rebuild

inductive Command where
  | build
  | plan
  | clean
deriving DecidableEq, Inhabited, Repr

inductive OutputFormat where
  | text
  | json
deriving DecidableEq, Inhabited, Repr

structure Options where
  project : Path
  config : Option Path
  output : OutputFormat
  verbose : Bool
deriving DecidableEq, Inhabited, Repr

inductive Invocation where
  | run (command : Command) (options : Options)
  | version
  /-- Help on the whole program or on one command. -/
  | help (command : Option Command)
  /-- The arguments make no sense; the text says why. -/
  | usage (reason : String)
deriving DecidableEq, Inhabited, Repr

/-! ### Options -/

/-- Options as they were given on one side of the command. -/
structure Given where
  project : Option Path
  config : Option Path
  output : Option OutputFormat
  verbose : Bool
deriving DecidableEq, Inhabited, Repr

namespace Given

def none : Given := ⟨.none, .none, .none, false⟩

/-- Options after the command win over those before it. -/
def merge (before after : Given) : Options where
  project := (after.project.orElse fun _ => before.project).getD ⟨"."⟩
  config := after.config.orElse fun _ => before.config
  output := (after.output.orElse fun _ => before.output).getD .text
  verbose := after.verbose || before.verbose

end Given

/-- The options that take a value. -/
inductive Setting where
  | project
  | config
  | output
deriving DecidableEq, Repr

def Setting.name : Setting → String
  | .project => "project"
  | .config => "config"
  | .output => "output"

def repeated (name : String) : String :=
  "the argument '--" ++ name ++ "' cannot be used multiple times"

def Given.setPath (slot : Option Path) (name value : String) (f : Path → Given) : Except String Given :=
  if value.isEmpty then .error ("a value is required for '--" ++ name ++ "'")
  else if slot.isSome then .error (repeated name)
  else .ok (f ⟨value⟩)

/-- Sets an option to a value. -/
def Given.set (g : Given) (s : Setting) (value : String) : Except String Given :=
  match s with
  | .project => setPath g.project s.name value fun p => { g with project := some p }
  | .config => setPath g.config s.name value fun p => { g with config := some p }
  | .output =>
    if g.output.isSome then .error (repeated s.name)
    else match value with
      | "text" => .ok { g with output := some .text }
      | "json" => .ok { g with output := some .json }
      | _ => .error ("invalid value '" ++ value ++ "' for '--output'")

def Given.setVerbose (g : Given) : Except String Given :=
  if g.verbose then .error (repeated "verbose") else .ok { g with verbose := true }

/-! ### Single arguments -/

/-- What one argument is. -/
inductive Argument where
  /-- The mark after which nothing is an option. -/
  | endOfOptions
  /-- A long option, and a value given with it. -/
  | long (name : String) (value : Option String)
  /-- Short options in one argument. -/
  | short (letters : List Char)
  | word (text : String)
deriving DecidableEq, Repr

def Argument.of (s : String) : Argument :=
  match s.toList with
  | ['-', '-'] => .endOfOptions
  | '-' :: '-' :: cs =>
    let (name, value) := cs.span (· ≠ '=')
    .long (String.ofList name) (match value with
      | [] => none
      | _ :: value => some (String.ofList value))
  | '-' :: c :: cs => .short (c :: cs)
  | _ => .word s

def Setting.ofName? : String → Option Setting
  | "project" => some .project
  | "config" => some .config
  | "output" => some .output
  | _ => none

def Setting.ofLetter? : Char → Option Setting
  | 'C' => some .project
  | 'o' => some .output
  | _ => none

/-- What an argument leads to. -/
inductive Effect where
  | given (g : Given)
  /-- The option takes the next argument as its value. -/
  | awaits (g : Given) (s : Setting)
  | help
  | version
  | fault (reason : String)

def Effect.ofExcept : Except String Given → Effect
  | .ok g => .given g
  | .error reason => .fault reason

def unexpected (text : String) : Effect := .fault ("unexpected argument '" ++ text ++ "' found")

/-- A long option; the version is known only before the command. -/
def longEffect (top : Bool) (g : Given) (name : String) (value : Option String) : Effect :=
  match Setting.ofName? name, value with
  | some s, some value => .ofExcept (g.set s value)
  | some s, none => .awaits g s
  | none, some _ => unexpected ("--" ++ name)
  | none, none =>
    match name with
    | "verbose" => .ofExcept g.setVerbose
    | "help" => .help
    | "version" => if top then .version else unexpected "--version"
    | _ => unexpected ("--" ++ name)

/-- Short options; one that takes a value takes the rest of the argument, or the next one. -/
def shortEffect (top : Bool) (g : Given) : List Char → Effect
  | [] => .given g
  | c :: cs =>
    match Setting.ofLetter? c with
    | some s =>
      match cs with
      | [] => .awaits g s
      | '=' :: value => .ofExcept (g.set s (String.ofList value))
      | value => .ofExcept (g.set s (String.ofList value))
    | none =>
      if c = 'v' then
        match g.setVerbose with
        | .ok g => shortEffect top g cs
        | .error reason => .fault reason
      else if c = 'h' then .help
      else if c = 'V' ∧ top then .version
      else unexpected (String.ofList ['-', c])

/-! ### All arguments -/

def Command.ofName? : String → Option Command
  | "build" => some .build
  | "plan" => some .plan
  | "clean" => some .clean
  | _ => none

def missingValue (s : Setting) : Invocation :=
  .usage ("a value is required for '--" ++ s.name ++ "' but none was supplied")

/-- The arguments after the command. -/
def afterCommand (command : Command) (before g : Given) (awaited : Option Setting) :
    List String → Invocation
  | [] =>
    match awaited with
    | some s => missingValue s
    | none => .run command (before.merge g)
  | arg :: rest =>
    let effect : Effect := match Argument.of arg, awaited with
      | .word value, some s => .ofExcept (g.set s value)
      | _, some s => .fault ("a value is required for '--" ++ s.name ++ "'")
      | .word text, none => unexpected text
      | .long name value, none => longEffect false g name value
      | .short letters, none => shortEffect false g letters
      | .endOfOptions, none => if rest.isEmpty then .given g else unexpected (rest.headD "")
    match effect with
    | .given g => afterCommand command before g none rest
    | .awaits g s => afterCommand command before g (some s) rest
    | .help => .help (some command)
    | .version => .version
    | .fault reason => .usage reason

/-- Help on a command by name. -/
def helpOn : List String → Invocation
  | [] => .help none
  | name :: rest =>
    match Command.ofName? name, rest with
    | some command, [] => .help (some command)
    | none, [] => if name = "help" then .help none else .usage ("unrecognized subcommand '" ++ name ++ "'")
    | _, extra :: _ => .usage ("unrecognized subcommand '" ++ extra ++ "'")

/-- The arguments up to the command. -/
def beforeCommand (g : Given) (awaited : Option Setting) : List String → Invocation
  | [] =>
    match awaited with
    | some s => missingValue s
    | none => .usage "a subcommand is required"
  | arg :: rest =>
    match Argument.of arg, awaited with
    | .word name, none =>
      match Command.ofName? name with
      | some command => afterCommand command g .none none rest
      | none => if name = "help" then helpOn rest else .usage ("unrecognized subcommand '" ++ name ++ "'")
    | a, awaited =>
      let effect : Effect := match a, awaited with
        | .word value, some s => .ofExcept (g.set s value)
        | _, some s => .fault ("a value is required for '--" ++ s.name ++ "'")
        | .long name value, none => longEffect true g name value
        | .short letters, none => shortEffect true g letters
        | _, none => .fault "a subcommand is required"
      match effect with
      | .given g => beforeCommand g none rest
      | .awaits g s => beforeCommand g (some s) rest
      | .help => .help none
      | .version => .version
      | .fault reason => .usage reason

def Invocation.ofArguments (args : List String) : Invocation :=
  beforeCommand .none none args

end Rebuild
