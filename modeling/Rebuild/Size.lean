/-
Sizes and elapsed times as a build summary shows them.

* `Size.render` — bytes, or kilobytes and megabytes with one place;
* `Duration.elapsed` — milliseconds, seconds with two places, or the written form to the second.
-/
import Rebuild.Decimal.Rounding
import Rebuild.Duration

set_option autoImplicit false

namespace Rebuild

namespace Size

def kilobyte : Nat := 1024

def megabyte : Nat := 1048576

/-- Bytes pass through a number of 53 bits before they are scaled. -/
def render (bytes : Nat) : String :=
  let b := Decimal.Binary.ofRatio bytes 1
  if megabyte ≤ bytes then b.fixed 1 megabyte ++ " MB"
  else if kilobyte ≤ bytes then b.fixed 1 kilobyte ++ " KB"
  else toString bytes ++ " B"

end Size

namespace Duration

/-- The span without its part below a second. -/
def wholeSeconds (d : Duration) : Duration :=
  ⟨d.seconds, 0, d.seconds_lt, zero_lt_second⟩

/-- From a minute on whole seconds suffice. -/
def elapsed (d : Duration) : String :=
  if 60 ≤ d.seconds then d.wholeSeconds.render
  else if 0 < d.seconds then
    ((Decimal.Binary.ofRatio d.nanos 1000000000).addNat d.seconds).fixed 2 1 ++ "s"
  else toString d.millis ++ "ms"

end Duration

end Rebuild
