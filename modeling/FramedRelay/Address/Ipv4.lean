import FramedRelay.Address.Numerals

/-!
# IPv4 addresses

Four octets, written in decimal with points between them and without leading zeros.
-/

namespace FramedRelay.Address

/-- An IPv4 address. -/
structure Ipv4 where
  a : UInt8
  b : UInt8
  c : UInt8
  d : UInt8
  deriving DecidableEq, Repr

namespace Ipv4

/-- The written form. -/
def text (x : Ipv4) : List Char :=
  Nat.toDigits 10 x.a.toNat ++ '.' :: Nat.toDigits 10 x.b.toNat ++
    '.' :: Nat.toDigits 10 x.c.toNat ++ '.' :: Nat.toDigits 10 x.d.toNat

/-- An octet: at most three digits, zero first only if alone, below 256. -/
def octet? (cs : List Char) : Option (UInt8 × List Char) :=
  match short? 10 3 cs with
  | none => none
  | some (n, rest) =>
    if cs.head? = some '0' ∧ rest.length + 1 < cs.length then none
    else if n < 256 then some (UInt8.ofNat n, rest)
    else none

/-- A point and an octet. -/
def pointOctet? (cs : List Char) : Option (UInt8 × List Char) :=
  (char? '.' cs).bind octet?

/-- An address at the front of a text, and the rest. -/
def read? (cs : List Char) : Option (Ipv4 × List Char) := do
  let (a, cs) ← octet? cs
  let (b, cs) ← pointOctet? cs
  let (c, cs) ← pointOctet? cs
  let (d, cs) ← pointOctet? cs
  return (⟨a, b, c, d⟩, cs)

end Ipv4

end FramedRelay.Address
