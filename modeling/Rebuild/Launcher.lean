/-
Launchers: programs that are shipped as they are, and fetched if they are not there.

* `Launcher`, `RetryPolicy` — what is wanted, and how often to ask for it;
* `statusText` — how a status that is no success is called;
* `ensureLauncher` — **a launcher that is there is left alone; otherwise it is fetched, checked and put
  in place at once**.
-/
import Rebuild.Sha256
import Rebuild.World

set_option autoImplicit false

namespace Rebuild

structure Launcher where
  /-- The name it is fetched under. -/
  file : String
  /-- Where it is kept in the project. -/
  path : Path
  /-- The digest a fetched copy must have. -/
  sha256 : Option String
deriving DecidableEq, Inhabited, Repr

structure RetryPolicy where
  /-- How often to ask, the first time included. -/
  attempts : Nat
  /-- How long to wait before the second time; the wait doubles each time. -/
  initialDelay : Duration
  attempts_lt : attempts < 4294967296
deriving DecidableEq, Repr

def RetryPolicy.standard : RetryPolicy := ⟨3, Duration.ofMillis 500, by decide⟩

instance : Inhabited RetryPolicy := ⟨.standard⟩

inductive FetchError where
  | http (url : String) (attempts : Nat) (message : String)
  | hashMismatch (url expected actual : String)
  | write (path : Path) (cause : IoError)
deriving DecidableEq, Repr

namespace FetchError

def message : FetchError → String
  | .http url attempts message =>
    "fetch failed for " ++ url ++ " after " ++ toString attempts ++ " attempt(s): " ++ message
  | .hashMismatch url expected actual =>
    "hash mismatch for " ++ url ++ ": expected " ++ expected ++ ", got " ++ actual
  | .write path cause => "failed to write " ++ path.text ++ ": " ++ cause.message

def causes : FetchError → List String
  | .write _ cause => [cause.message]
  | _ => []

end FetchError

inductive FetchOutcome where
  | present
  | downloaded (bytes : Nat)
deriving DecidableEq, Inhabited, Repr

/-! ### One request -/

/-- The standard phrase of a status. -/
def reasonPhrase? : Nat → Option String
  | 100 => some "Continue"
  | 101 => some "Switching Protocols"
  | 102 => some "Processing"
  | 103 => some "Early Hints"
  | 200 => some "OK"
  | 201 => some "Created"
  | 202 => some "Accepted"
  | 203 => some "Non Authoritative Information"
  | 204 => some "No Content"
  | 205 => some "Reset Content"
  | 206 => some "Partial Content"
  | 207 => some "Multi-Status"
  | 208 => some "Already Reported"
  | 226 => some "IM Used"
  | 300 => some "Multiple Choices"
  | 301 => some "Moved Permanently"
  | 302 => some "Found"
  | 303 => some "See Other"
  | 304 => some "Not Modified"
  | 305 => some "Use Proxy"
  | 307 => some "Temporary Redirect"
  | 308 => some "Permanent Redirect"
  | 400 => some "Bad Request"
  | 401 => some "Unauthorized"
  | 402 => some "Payment Required"
  | 403 => some "Forbidden"
  | 404 => some "Not Found"
  | 405 => some "Method Not Allowed"
  | 406 => some "Not Acceptable"
  | 407 => some "Proxy Authentication Required"
  | 408 => some "Request Timeout"
  | 409 => some "Conflict"
  | 410 => some "Gone"
  | 411 => some "Length Required"
  | 412 => some "Precondition Failed"
  | 413 => some "Payload Too Large"
  | 414 => some "URI Too Long"
  | 415 => some "Unsupported Media Type"
  | 416 => some "Range Not Satisfiable"
  | 417 => some "Expectation Failed"
  | 418 => some "I'm a teapot"
  | 421 => some "Misdirected Request"
  | 422 => some "Unprocessable Entity"
  | 423 => some "Locked"
  | 424 => some "Failed Dependency"
  | 425 => some "Too Early"
  | 426 => some "Upgrade Required"
  | 428 => some "Precondition Required"
  | 429 => some "Too Many Requests"
  | 431 => some "Request Header Fields Too Large"
  | 451 => some "Unavailable For Legal Reasons"
  | 500 => some "Internal Server Error"
  | 501 => some "Not Implemented"
  | 502 => some "Bad Gateway"
  | 503 => some "Service Unavailable"
  | 504 => some "Gateway Timeout"
  | 505 => some "HTTP Version Not Supported"
  | 506 => some "Variant Also Negotiates"
  | 507 => some "Insufficient Storage"
  | 508 => some "Loop Detected"
  | 510 => some "Not Extended"
  | 511 => some "Network Authentication Required"
  | _ => none

def statusText (code : Nat) : String :=
  "HTTP " ++ toString code ++ " " ++ (reasonPhrase? code).getD "<unknown status code>"

/-- The body that a reply brings, or what went wrong. -/
def readReply (u : Url) : Reply → Except String Bytes
  | .dropped => .error ("error sending request for url (" ++ u.render ++ ")")
  | .status code body =>
    if 200 ≤ code ∧ code < 300 then .ok body else .error (statusText code)

/-- The address as a request shows it; name and password travel apart from it. -/
def requestUrl? (url : String) : Option Url := (Url.parse? url).map Url.withoutCredentials

/-- Asks once.  An address that names no web server is refused without a request. -/
def request (url : String) : EStateM String World Bytes := fun w =>
  match requestUrl? url with
  | none => .error "builder error" w
  | some u =>
    if u.canRequest then
      let reply := w.network.answer w.network.requests u
      let w := { w with network := { w.network with requests := w.network.requests ++ [u] } }
      match readReply u reply with
      | .ok body => .ok body w
      | .error message => .error message w
    else .error ("builder error for url (" ++ u.render ++ ")") w

/-! ### Asking again -/

/-- Asks, and on failure up to `more` times again, after a wait that doubles each time. -/
def requestAgain (url : String) : (more : Nat) → (delay : Duration) → EStateM String World Bytes
  | 0, _ => request url
  | more + 1, delay => fun w =>
    match request url w with
    | .ok body w => .ok body w
    | .error _ w => requestAgain url more delay.double (w.wait delay)

/-- There is always one attempt. -/
def RetryPolicy.total (r : RetryPolicy) : Nat := max r.attempts 1

def download (url : String) (retry : RetryPolicy) : EStateM FetchError World Bytes := fun w =>
  match requestAgain url (retry.total - 1) retry.initialDelay w with
  | .ok body w => .ok body w
  | .error message w => .error (.http url retry.total message) w

/-! ### Putting it in place -/

/-- The address without slashes at its end, then one slash and the file. -/
def launcherUrl (baseUrl file : String) : String :=
  String.ofList (baseUrl.toList.reverse.dropWhile (· == '/')).reverse ++ "/" ++ file

/-- Letter case does not matter in a digest. -/
def sameDigest (a b : String) : Bool :=
  a.toList.map Char.toLower == b.toList.map Char.toLower

def checkDigest (url : String) (bytes : Bytes) : Option String → Except FetchError Unit
  | none => .ok ()
  | some expected =>
    let actual := Sha256.hexDigest bytes
    if sameDigest actual expected then .ok () else .error (.hashMismatch url expected actual)

/-- Writes a program in one step, making the directory it goes to. -/
def installProgram (dest : Path) (bytes : Bytes) : Disk Unit := do
  let parent := match dest.parent? with
    | some p => if p.text.isEmpty then ⟨"."⟩ else p
    | none => ⟨"."⟩
  Disk.makeDirectories parent
  Disk.change fun fs => fs.install dest ⟨bytes, fs.clock, true⟩

def ensureLauncher (launcher : Launcher) (dest : Path) (baseUrl : String) (retry : RetryPolicy) :
    EStateM FetchError World FetchOutcome := do
  let w ← get
  if w.files.present dest then pure .present
  else
    let url := launcherUrl baseUrl launcher.file
    let bytes ← download url retry
    match checkDigest url bytes launcher.sha256 with
    | .error e => throw e
    | .ok _ =>
      World.onFiles (.write dest) (installProgram dest bytes)
      pure (.downloaded bytes.length)

end Rebuild
