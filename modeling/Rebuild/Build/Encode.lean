/-
Plans and reports as structured data.

Paths are text here.  A path that is no UTF-8 text could not be written as structured data either; no
`Path` is one, so a time before the epoch is all that cannot be written.

* `Time.toValue` — seconds and nanoseconds since the epoch; **a time before it has no such form**;
* `Staleness.toValue`, `Plan.toValue`, `Report.toValue`, `BuildReport.toValue`.
-/
import Rebuild.Build
import Rebuild.Config.Encode

set_option autoImplicit false

namespace Rebuild

/-- Why something cannot be written as structured data, when its paths are text. -/
inductive EncodeError where
  | beforeEpoch
deriving DecidableEq, Repr

def EncodeError.message : EncodeError → String
  | .beforeEpoch => "SystemTime must be later than UNIX_EPOCH"

abbrev Encoded := Except EncodeError Value

def Time.toValue (t : Time) : Encoded :=
  if t < .epoch then .error .beforeEpoch
  else .ok (.record
    [("secs_since_epoch", .int t.seconds), ("nanos_since_epoch", .nat t.subsecond)])

def Time.optionToValue : Option Time → Encoded
  | none => .ok .null
  | some t => t.toValue

def Reason.text : Reason → String
  | .artifactMissing => "artifact_missing"
  | .sourcesNewer => "sources_newer"
  | .upToDate => "up_to_date"

def Staleness.toValue (s : Staleness) : Encoded := do
  let sourceTime ← Time.optionToValue s.sourceTime
  let artifactTime ← Time.optionToValue s.artifactTime
  .ok (.record [("module", .str s.module), ("reason", .str s.reason.text),
    ("source_time", sourceTime), ("artifact_time", artifactTime)])

def Staleness.toValues : List Staleness → Except EncodeError (List Value)
  | [] => .ok []
  | s :: ss => do
    let v ← s.toValue
    let vs ← toValues ss
    .ok (v :: vs)

def Plan.toValue (p : Plan) : Encoded := do
  let modules ← Staleness.toValues p.modules
  .ok (.record [("layout", p.layout.toValue), ("modules", .list modules),
    ("tasks", .list (p.tasks.map Task.toValue))])

def Status.text : Status → String
  | .notRun => "not_run"
  | .succeeded => "succeeded"
  | .failed => "failed"

/-- The failure itself is not part of it. -/
def Report.toValue {ε : Type} (r : Report ε) : Value :=
  .record [("tasks", .list (r.tasks.map fun t => .strs [t.1, t.2.text]))]

def FetchOutcome.toValue : FetchOutcome → Value
  | .present => .str "present"
  | .downloaded bytes => .record [("downloaded", .record [("bytes", .nat bytes)])]

def LauncherStatus.toValue (s : LauncherStatus) : Value :=
  .record [("file", .str s.file), ("outcome", s.outcome.toValue)]

def BuildReport.toValue (r : BuildReport) : Encoded := do
  let plan ← r.plan.toValue
  .ok (.record [("plan", plan), ("execution", r.execution.toValue),
    ("launchers", .list (r.launchers.map LauncherStatus.toValue)),
    ("packaged", .paths r.packaged)])

end Rebuild
