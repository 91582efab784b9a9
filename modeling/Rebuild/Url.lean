/-
Addresses on the network, in the one form that requests and messages show.

* `Url`, `Url.Authority` — an address, and the part of it that names a server;
* `Url.parse?` — reads an absolute address; none if it has no scheme or no usable host.  In well-known
  schemes a backslash is as good as a slash;
* `Url.render` — the address as text;
* `Url.withoutCredentials` — the address as it is shown once name and password are taken out of it;
* `Url.canRequest` — whether a web server can be asked for it.
-/
import Rebuild.Url.Host
import Rebuild.Url.Segments

set_option autoImplicit false

namespace Rebuild

namespace Url

structure Authority where
  /-- A name, as it is shown. -/
  user : String
  /-- A password, as it is shown; an empty one is none. -/
  password : String
  host : Host
  /-- A port that is not the usual one of the scheme. -/
  port : Option Nat
deriving DecidableEq, Inhabited, Repr

end Url

structure Url where
  scheme : String
  authority : Option Url.Authority
  /-- The path as it is shown, with its leading slash if it has one. -/
  path : String
  /-- Query and fragment with their marks. -/
  suffix : String
deriving DecidableEq, Inhabited, Repr

namespace Url

/-! ### Schemes -/

def defaultPort? : String → Option Nat
  | "http" => some 80
  | "https" => some 443
  | "ws" => some 80
  | "wss" => some 443
  | "ftp" => some 21
  | _ => none

/-- The schemes whose addresses always have a host, or a place on this machine. -/
def isSpecial (scheme : String) : Bool :=
  scheme == "file" || (defaultPort? scheme).isSome

/-- A scheme and what follows its colon. -/
def scheme? (cs : List Char) : Option (String × List Char) :=
  let ok (c : Char) : Bool := c.isAlphanum || c == '+' || c == '-' || c == '.'
  let (name, rest) := cs.span ok
  match name, rest with
  | first :: _, ':' :: rest =>
    if first.isAlpha then some (String.ofList (name.map Char.toLower), rest) else none
  | _, _ => none

/-! ### Authorities -/

/-- Name, password and the rest, which starts after the last at sign; none if there is no such sign. -/
def credentials? (cs : List Char) : Option (List Char × List Char × List Char) :=
  if cs.contains '@' then
    let rest := (cs.reverse.takeWhile (· ≠ '@')).reverse
    let info := cs.take (cs.length - rest.length - 1)
    let (user, password) := info.span (· ≠ ':')
    some (user, password.drop 1, rest)
  else none

/-- The host at the front; a colon ends it, but not one in square brackets. -/
def spanHost (inBrackets : Bool) : List Char → List Char × List Char
  | [] => ([], [])
  | c :: cs =>
    if c = ':' ∧ !inBrackets then ([], c :: cs)
    else
      let (host, rest) := spanHost (if c = '[' then true else if c = ']' then false else inBrackets) cs
      (c :: host, rest)

/-- The port after a host, and the rest.  Only a backslash can end it where that is no slash. -/
def port? (scheme : String) : List Char → Option (Option Nat × List Char)
  | ':' :: cs =>
    let (digits, rest) := cs.span Char.isDigit
    let n := Text.ofDigits 10 digits
    if n < 65536 ∧ (rest = [] ∨ rest.head? = some '\\') then
      some (if digits.isEmpty || defaultPort? scheme = some n then none else some n, rest)
    else none
  | rest => some (none, rest)

/-- An authority, and what is left of its characters for the path.  `more` tells whether the address
goes on after them. -/
def authority? (scheme : String) (more : Bool) (cs : List Char) : Option (Authority × List Char) := do
  let (user, password, hostPort) := (credentials? cs).getD ([], [], cs)
  let (hostText, rest) := spanHost false hostPort
  let host ← if isSpecial scheme then Host.ofText? hostText else Host.verbatim? hostText
  let lonely := cs.head? = some '@' ∧ hostPort = [] ∧ more
  let named := !user.isEmpty || !password.isEmpty
  if host = .empty ∧ (rest ≠ [] ∨ named ∨ lonely) then none
  else
    let (port, rest) ← port? scheme rest
    let shown (cs : List Char) := String.ofList (escape credentialReserved cs)
    some (⟨shown user, shown password, host, port⟩, rest)

/-- The authority of an address with no more than a host. -/
def Authority.ofHost (host : Host) : Authority := ⟨"", "", host, none⟩

/-! ### Reading -/

/-- Drops blanks and control characters at the ends, and tabs and line ends everywhere. -/
def clean (s : String) : List Char :=
  let outer (c : Char) : Bool := c.toNat ≤ 0x20
  (((s.toList.dropWhile outer).reverse.dropWhile outer).reverse).filter
    fun c => c ≠ '\t' && c ≠ '\n' && c ≠ '\r'

/-- Query and fragment in their shown form. -/
def renderSuffix (special : Bool) (cs : List Char) : String :=
  let (query, fragment) := cs.span (· ≠ '#')
  let fragment := match fragment with
    | [] => []
    | mark :: rest => mark :: escape fragmentReserved rest
  let query := match query with
    | [] => []
    | mark :: rest => mark :: escape (if special then '\'' :: queryReserved else queryReserved) rest
  String.ofList (query ++ fragment)

/-- The shown form of a path that follows its leading slash. -/
def renderPath (isSlash : Char → Bool) (cs : List Char) : String :=
  renderSegments (normalSegments false [] (cutAt isSlash cs))

def isEitherSlash (c : Char) : Bool := c == '/' || c == '\\'

/-- Host and path of a place on some machine, from what follows the two slashes.  A drive is no host,
and this machine needs no name. -/
def filePlace? (cs : List Char) : Option (Host × List Char) :=
  let (host, rest) := cs.span (!isEitherSlash ·)
  if host.isEmpty || isDrive host then some (.empty, cs)
  else do
    match ← Host.ofText? host with
    | .name "localhost" => some (.empty, rest)
    | host => some (host, rest.drop 1)

/-- A place on some machine.  **A drive at the front of the path does without a host.** -/
def fileUrl (host : Host) (path : List Char) (suffix : String) : Url :=
  let segments := normalSegments true [] (cutAt isEitherSlash path)
  let host := if segments.head?.any isDrive then .empty else host
  ⟨"file", some (.ofHost host), renderSegments (withoutLeadingSlashes segments), suffix⟩

def parseFile? (body : List Char) (suffix : String) : Option Url :=
  match body with
  | a :: rest =>
    if isEitherSlash a then
      match rest with
      | b :: place =>
        if isEitherSlash b then (filePlace? place).map fun p => fileUrl p.1 p.2 suffix
        else some (fileUrl .empty rest suffix)
      | [] => some (fileUrl .empty rest suffix)
    else some (fileUrl .empty body suffix)
  | [] => some (fileUrl .empty body suffix)

/-- An address of a well-known scheme other than for files; slashes before the host do not count. -/
def parseSpecial? (scheme : String) (body : List Char) (suffix : String) : Option Url := do
  let (server, path) := (body.dropWhile isEitherSlash).span (!isEitherSlash ·)
  let (authority, _) ← authority? scheme true server
  some ⟨scheme, some authority, renderPath isEitherSlash (path.drop 1), suffix⟩

def parseOther? (scheme : String) (body : List Char) (suffix : String) : Option Url :=
  let isSlash (c : Char) : Bool := c == '/'
  match body with
  | '/' :: '/' :: rest => do
    let (server, path) := rest.span (!isSlash ·)
    let (authority, left) ← authority? scheme (!path.isEmpty || suffix ≠ "") server
    let shown := match left ++ path with
      | [] => ""
      | '/' :: path => renderPath isSlash path
      | path => renderPath isSlash path
    some ⟨scheme, some authority, shown, suffix⟩
  | '/' :: rest => some ⟨scheme, none, renderPath isSlash rest, suffix⟩
  | body => some ⟨scheme, none, String.ofList (escape [] body), suffix⟩

def parse? (s : String) : Option Url := do
  let (scheme, rest) ← scheme? (clean s)
  let (body, suffix) := rest.span fun c => c ≠ '?' && c ≠ '#'
  let suffix := renderSuffix (isSpecial scheme) suffix
  if scheme = "file" then parseFile? body suffix
  else if isSpecial scheme then parseSpecial? scheme body suffix
  else parseOther? scheme body suffix

/-! ### Showing -/

def Authority.render (a : Authority) : String :=
  let password := if a.password.isEmpty then "" else ":" ++ a.password
  let credentials := if (a.user ++ password).isEmpty then "" else a.user ++ password ++ "@"
  credentials ++ a.host.render ++ a.port.elim "" fun n => ":" ++ toString n

/-- Without an authority, two slashes at the front of a path are kept apart from the scheme. -/
def render (u : Url) : String :=
  let authority := match u.authority with
    | some a => "//" ++ a.render
    | none => if u.path.startsWith "//" then "/." else ""
  u.scheme ++ ":" ++ authority ++ u.path ++ u.suffix

/-- Name and password are taken out if they are text. -/
def Authority.withoutCredentials (a : Authority) : Authority :=
  let readable (s : String) : Bool := (Text.decode? (unescape s.toList)).isSome
  if readable a.user && (!a.user.isEmpty || readable a.password) then
    { a with user := "", password := "" }
  else a

def withoutCredentials (u : Url) : Url :=
  { u with authority := u.authority.map Authority.withoutCredentials }

/-- Only these schemes can be asked for a file. -/
def isWeb (u : Url) : Bool := u.scheme == "http" || u.scheme == "https"

/-- Characters that a host name may hold but a request may not. -/
def unsendable : List Char := ['"', '`', '{', '}']

/-- The longest address that a request can hold, in bytes. -/
def maxRequestLength : Nat := 65534

def canRequest (u : Url) : Bool :=
  u.isWeb && !(u.authority.any fun a => a.host.render.toList.any unsendable.contains) &&
    u.render.utf8ByteSize ≤ maxRequestLength

end Url

end Rebuild
