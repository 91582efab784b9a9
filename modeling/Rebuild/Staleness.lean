/-
Whether a module has to be compiled.

* `Reason`, `Staleness` — the verdict with the times it rests on;
* `judge` — **a module is stale if its artifact is missing, or if a source is strictly newer**; no
  sources count as the epoch;
* `Staleness.check` — judges a module by the files as they are.
-/
import Rebuild.FileSystem.Walk
import Rebuild.Layout
import Rebuild.Module

set_option autoImplicit false

namespace Rebuild

inductive Reason where
  | artifactMissing
  | sourcesNewer
  | upToDate
deriving DecidableEq, Inhabited, Repr

structure Staleness where
  module : String
  reason : Reason
  /-- The newest source, if there are sources. -/
  sourceTime : Option Time
  /-- The artifact, if it exists. -/
  artifactTime : Option Time
deriving DecidableEq, Inhabited, Repr

def judge (sourceTime artifactTime : Option Time) : Reason :=
  match artifactTime with
  | none => .artifactMissing
  | some artifact => if artifact < sourceTime.getD .epoch then .sourcesNewer else .upToDate

namespace Staleness

def isStale (s : Staleness) : Bool := s.reason != .upToDate

def check (m : Module) (layout : Layout) (fs : FileSystem) : Staleness :=
  let sourceTime := fs.newestUnderAll? (m.sources.map layout.source)
  let artifactTime := fs.timeOf? (layout.output m.artifact)
  ⟨m.name, judge sourceTime artifactTime, sourceTime, artifactTime⟩

end Staleness

end Rebuild
