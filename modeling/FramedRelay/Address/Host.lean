import FramedRelay.Address.Socket

/-!
# Numeric hosts

The names that stand for an address without a lookup: IPv6 addresses with or without a numeric
scope, and IPv4 addresses of one to four numbers, each decimal, octal (after a zero) or
hexadecimal (after `0x`). The last number fills the octets that the others leave.
-/

namespace FramedRelay.Address

/-- A number in the base that its first characters say. -/
def based? : List Char → Option (Nat × List Char)
  | '0' :: x :: c :: cs =>
    if (x = 'x' ∨ x = 'X') ∧ (digit? 16 c).isSome then number? 16 UInt32.size (c :: cs)
    else number? 8 UInt32.size ('0' :: x :: c :: cs)
  | '0' :: cs => number? 8 UInt32.size ('0' :: cs)
  | cs => number? 10 UInt32.size cs

/-- At most `room` numbers with points between them, and nothing else. -/
def pointed? : Nat → List Char → Option (List Nat)
  | 0, _ => none
  | room + 1, cs => do
    let (n, cs) ← based? cs
    match cs with
    | [] => return [n]
    | '.' :: cs => return n :: (← pointed? room cs)
    | _ => none

/-- The IPv4 address whose number is `n`. -/
def Ipv4.ofNat (n : Nat) : Ipv4 :=
  ⟨UInt8.ofNat (n / 0x1000000), UInt8.ofNat (n / 0x10000 % 256), UInt8.ofNat (n / 256 % 256),
    UInt8.ofNat (n % 256)⟩

/-- The number of the address written as these numbers, `octets` of which are left to fill. -/
def assemble? : Nat → List Nat → Option Nat
  | _, [] => none
  | octets, [n] => if n < Nat.pow 256 octets then some n else none
  | octets, n :: ns =>
    if n < 256 then
      (assemble? (octets - 1) ns).map fun m => n * Nat.pow 256 (octets - 1) + m
    else none

/-- The IPv4 address of a name. -/
def Ipv4.ofName? (cs : List Char) : Option Ipv4 :=
  ((pointed? 4 cs).bind (assemble? 4)).map Ipv4.ofNat

/-- The IPv6 address and the scope of a name. -/
def Ipv6.ofName? (cs : List Char) : Option (Ipv6 × UInt32) :=
  match Ipv6.read? cs with
  | some (host, []) => some (host, 0)
  | some (host, '%' :: cs) =>
    match number? 10 UInt32.size cs with
    | some (n, []) => some (host, UInt32.ofNat n)
    | _ => none
  | _ => none

/-- The address of a numeric host and a port. -/
def Socket.ofName? (name : List Char) (port : UInt16) : Option Socket :=
  match Ipv4.ofName? name with
  | some host => some (.v4 host port)
  | none => (Ipv6.ofName? name).map fun (host, scope) => .v6 host port scope

end FramedRelay.Address
