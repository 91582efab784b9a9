/-
Colours on the command line.

* `Style`, `Style.ofEnvironment` — whether to colour; output is not a terminal here, so only
  variables can ask for it;
* `Style.isForced`, `Style.mayColour`, `Style.hasColours` — what the variables say;
* `Style.green` and its kind — a text in a colour, or as it is.
-/
import Rebuild.Config

set_option autoImplicit false

namespace Rebuild

structure Style where
  coloured : Bool
deriving DecidableEq, Inhabited, Repr

namespace Style

/-! ### Variables that force colours -/

/-- A whole number that is zero, with a plus sign or leading zeros if it likes. -/
def isZero (s : String) : Bool :=
  let digits := match s.toList with
    | '+' :: cs => cs
    | cs => cs
  !digits.isEmpty && digits.all (· == '0')

def isForced (env : Config.Environment) : Bool :=
  match env.lookup "FORCE_COLOR", env.lookup "CLICOLOR_FORCE" with
  | some force, _ => force ≠ "false" && !isZero force
  | none, some force => force ≠ "0"
  | none, none => false

/-! ### What the terminal can do -/

/-- A variable that is set to anything but zero. -/
def isOn (env : Config.Environment) (name : String) : Bool :=
  (env.lookup name).any (· ≠ "0")

/-- Output is not a terminal; a variable can ask to go on as if it were one. -/
def mayColour (env : Config.Environment) : Bool :=
  !isOn env "NO_COLOR" && env.lookup "TERM" ≠ some "dumb" && isOn env "IGNORE_IS_TERMINAL"

def terminalStarts : List String := ["screen", "xterm", "vt100", "vt220", "rxvt"]

def terminalParts : List String := ["color", "ansi", "cygwin", "linux"]

def terminalEnds : List String := ["direct", "256"]

/-- Whether one text stands somewhere in another. -/
def occursIn (part : List Char) : List Char → Bool
  | [] => part.isEmpty
  | c :: cs => part.isPrefixOf (c :: cs) || occursIn part cs

/-- Terminals that are known to have colours, by their name. -/
def isColourTerminal (name : String) : Bool :=
  let cs := name.toList
  terminalStarts.any (·.toList.isPrefixOf cs) || terminalParts.any (fun s => occursIn s.toList cs)
    || terminalEnds.any (·.toList.isSuffixOf cs)

/-- Variables that only machines set on which nobody watches a build. -/
def unattendedVariables : List String :=
  ["CI_NAME", "GITHUB_ACTION", "GITLAB_CI", "NETLIFY", "TRAVIS", "CODEBUILD_SRC_DIR", "BUILDER_OUTPUT",
   "GITLAB_DEPLOYMENT", "NOW_GITHUB_DEPLOYMENT", "NOW_BUILDER", "BITBUCKET_DEPLOYMENT", "GERRIT_PROJECT",
   "SYSTEM_TEAMFOUNDATIONCOLLECTIONURI", "BITRISE_IO", "BUDDY_WORKSPACE_ID", "BUILDKITE", "CIRRUS_CI",
   "APPVEYOR", "CIRCLECI", "SEMAPHORE", "DRONE", "DSARI", "TDDIUM", "STRIDER", "TASKCLUSTER_ROOT_URL",
   "JENKINS_URL", "bamboo.buildKey", "GO_PIPELINE_NAME", "HUDSON_URL", "WERCKER", "MAGNUM", "NEVERCODE",
   "RENDER", "SAIL_CI", "SHIPPABLE"]

/-- Whether the program seems to run on such a machine; its logs show colours. -/
def isUnattended (env : Config.Environment) : Bool :=
  ["true", "1", "woodpecker"].any (fun v => env.lookup "CI" = some v)
    || unattendedVariables.any (fun name => (env.lookup name).isSome)
    || (env.lookup "NODE").any fun v => "//heroku/node/bin/node".toList.isSuffixOf v.toList

def hasColours (env : Config.Environment) : Bool :=
  (env.lookup "COLORTERM").isSome
    || (env.lookup "TERM").any isColourTerminal
    || ["iTerm.app", "Apple_Terminal"].any (fun v => env.lookup "TERM_PROGRAM" = some v)
    || isOn env "CLICOLOR"
    || isUnattended env

/-- Whether to colour: **a variable that forces colours wins over one that forbids them**, and without
either the terminal decides. -/
def ofEnvironment (env : Config.Environment) : Style :=
  ⟨isForced env || (mayColour env && hasColours env)⟩

/-- The variables that are looked at. -/
def lookedAt : List String :=
  ["FORCE_COLOR", "CLICOLOR_FORCE", "NO_COLOR", "TERM", "IGNORE_IS_TERMINAL", "COLORTERM", "TERM_PROGRAM",
   "CLICOLOR", "CI", "NODE"] ++ unattendedVariables

/-! ### Texts -/

def escapeCode : String := "\x1b["

/-- Text between the code that turns a style on and the one that turns it off. -/
def wrap (s : Style) (on off : Nat) (text : String) : String :=
  if s.coloured then
    escapeCode ++ toString on ++ "m" ++ text ++ escapeCode ++ toString off ++ "m"
  else text

def red (s : Style) : String → String := s.wrap 31 39

def green (s : Style) : String → String := s.wrap 32 39

def yellow (s : Style) : String → String := s.wrap 33 39

def blue (s : Style) : String → String := s.wrap 34 39

def dimmed (s : Style) : String → String := s.wrap 2 0

end Style

end Rebuild
