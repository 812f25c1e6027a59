import FramedRelay.Address.Ipv6

/-!
# Socket addresses

A host address and a port. An IPv6 host stands in square brackets, with the number of its scope
after a percent sign unless that is zero.
-/

namespace FramedRelay.Address

/-- A host and a port on it. -/
inductive Socket
  | v4 (host : Ipv4) (port : UInt16)
  | v6 (host : Ipv6) (port : UInt16) (scope : UInt32)
  deriving DecidableEq, Repr

namespace Socket

/-- A number after a percent sign, unless it is zero. -/
def scopeText (scope : UInt32) : List Char :=
  if scope = 0 then [] else '%' :: Nat.toDigits 10 scope.toNat

/-- The written form. -/
def text : Socket → List Char
  | v4 host port => host.text ++ ':' :: Nat.toDigits 10 port.toNat
  | v6 host port scope =>
    '[' :: host.text ++ scopeText scope ++ ']' :: ':' :: Nat.toDigits 10 port.toNat

/-- The written form. -/
def display (a : Socket) : String := String.ofList a.text

/-- A colon and a port. -/
def port? (cs : List Char) : Option (UInt16 × List Char) := do
  let (n, cs) ← number? 10 UInt16.size (← char? ':' cs)
  return (UInt16.ofNat n, cs)

/-- A scope, if one is written. -/
def scope (cs : List Char) : UInt32 × List Char :=
  match (char? '%' cs).bind (number? 10 UInt32.size) with
  | some (n, rest) => (UInt32.ofNat n, rest)
  | none => (0, cs)

/-- An address with an IPv4 host. -/
def readV4? (cs : List Char) : Option (Socket × List Char) := do
  let (host, cs) ← Ipv4.read? cs
  let (port, cs) ← port? cs
  return (v4 host port, cs)

/-- An address with an IPv6 host. -/
def readV6? (cs : List Char) : Option (Socket × List Char) := do
  let (host, cs) ← Ipv6.read? (← char? '[' cs)
  let (scope, cs) := scope cs
  let (port, cs) ← port? (← char? ']' cs)
  return (v6 host port scope, cs)

/-- The address that a whole text is the written form of. -/
def parse? (cs : List Char) : Option Socket :=
  match readV4? cs with
  | some (a, []) => some a
  | _ =>
    match readV6? cs with
    | some (a, []) => some a
    | _ => none

end Socket

end FramedRelay.Address
