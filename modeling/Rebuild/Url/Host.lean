/-
The host that an address names.

* `Host` — a name, an address in numbers, or nothing;
* `Host.ofText?` — reads the host of a well-known scheme, where letter case does not matter and a name
  that ends in a number is an address;
* `Host.verbatim?` — reads the host of any other scheme, which is kept as it is written.
-/
import Rebuild.Url.Domain
import Rebuild.Url.Escape

set_option autoImplicit false

namespace Rebuild

inductive Host where
  | empty
  | name (text : String)
  | ipv4 (address : Nat)
  | ipv6 (groups : List Nat)
deriving DecidableEq, Inhabited, Repr

namespace Host

/-- What stands in square brackets, after the first one. -/
def bracketed? (cs : List Char) : Option Host :=
  if cs.getLast? = some ']' then (Url.ipv6? cs.dropLast).map .ipv6 else none

def ofText? : List Char → Option Host
  | '[' :: rest => bracketed? rest
  | cs => do
    let name ← Domain.ofBytes? (Url.unescape cs)
    if name.isEmpty then none
    else if Url.endsInNumber name then (Url.ipv4? name).map .ipv4
    else some (.name (String.ofList name))

/-- Characters that no host holds, whatever the scheme. -/
def forbidden : List Char :=
  [Char.ofNat 0, ' ', '#', '/', ':', '<', '>', '?', '@', '[', '\\', ']', '^', '|']

def verbatim? : List Char → Option Host
  | [] => some .empty
  | '[' :: rest => bracketed? rest
  | cs =>
    if cs.any forbidden.contains then none else some (.name (String.ofList (Url.escape [] cs)))

def render : Host → String
  | .empty => ""
  | .name text => text
  | .ipv4 address => Url.renderIpv4 address
  | .ipv6 groups => "[" ++ Url.renderIpv6 groups ++ "]"

end Host

end Rebuild
