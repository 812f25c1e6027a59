import FramedRelay.Address.Ipv4

/-!
# IPv6 addresses

Eight groups of sixteen bits, written in hexadecimal with colons between them. The first longest
run of two or more zero groups is written as two colons. An address of which the first 80 bits are
zero and the next 16 are one is written with its last 32 bits as an IPv4 address. Reading takes
two colons for any number of zero groups from one, and an IPv4 address for any last two groups.
-/

namespace FramedRelay.Address

/-- An IPv6 address. -/
structure Ipv6 where
  groups : List UInt16
  length_groups : groups.length = 8 := by simp
  deriving DecidableEq, Repr

namespace Ipv6

/-! ## Writing -/

/-- A run of zero groups. -/
structure Run where
  start : Nat
  length : Nat
  deriving DecidableEq, Repr

/-- The first longest run of zeros among groups, the first of which is number `i`; `current` is the
run that ends before it, and `best` the longest so far. -/
def longestRun (i : Nat) (current best : Run) : List UInt16 → Run
  | [] => best
  | g :: gs =>
    if g = 0 then
      let current : Run :=
        if current.length = 0 then ⟨i, 1⟩ else ⟨current.start, current.length + 1⟩
      longestRun (i + 1) current (if best.length < current.length then current else best) gs
    else longestRun (i + 1) ⟨0, 0⟩ best gs

/-- A group in hexadecimal. -/
def groupText (g : UInt16) : List Char := Nat.toDigits 16 g.toNat

/-- Groups with colons between them. -/
def groupsText : List UInt16 → List Char
  | [] => []
  | [g] => groupText g
  | g :: gs => groupText g ++ ':' :: groupsText gs

/-- The IPv4 address in the last two groups. -/
def lowHalf (high low : UInt16) : Ipv4 :=
  ⟨UInt8.ofNat (high.toNat / 256), UInt8.ofNat (high.toNat % 256),
    UInt8.ofNat (low.toNat / 256), UInt8.ofNat (low.toNat % 256)⟩

/-- The written form of groups. -/
def textOf : List UInt16 → List Char
  | [0, 0, 0, 0, 0, 0xFFFF, high, low] =>
    [':', ':', 'f', 'f', 'f', 'f', ':'] ++ (lowHalf high low).text
  | gs =>
    let run := longestRun 0 ⟨0, 0⟩ ⟨0, 0⟩ gs
    if run.length < 2 then groupsText gs
    else groupsText (gs.take run.start) ++ ':' :: ':' ::
      groupsText (gs.drop (run.start + run.length))

/-- The written form. -/
def text (x : Ipv6) : List Char := textOf x.groups

/-! ## Reading -/

/-- The two groups of an IPv4 address. -/
def ofIpv4 (x : Ipv4) : List UInt16 :=
  [UInt16.ofNat (256 * x.a.toNat + x.b.toNat), UInt16.ofNat (256 * x.c.toNat + x.d.toNat)]

/-- A group at the front of a text. -/
def group? (cs : List Char) : Option (UInt16 × List Char) :=
  (short? 16 4 cs).map fun (n, rest) => (UInt16.ofNat n, rest)

/-- The colon before a group that is not the first. -/
def separator? (first : Bool) (cs : List Char) : Option (List Char) :=
  if first then some cs else char? ':' cs

/-- Groups read off the front of a text: whether they end with an IPv4 address, and the rest. -/
structure Groups where
  groups : List UInt16
  endsInIpv4 : Bool
  rest : List Char

/-- Reads at most `room` groups. -/
def readGroups : Nat → Bool → List Char → Groups
  | 0, _, cs => ⟨[], false, cs⟩
  | room + 1, first, cs =>
    match if 0 < room then (separator? first cs).bind Ipv4.read? else none with
    | some (x, rest) => ⟨ofIpv4 x, true, rest⟩
    | none =>
      match (separator? first cs).bind group? with
      | none => ⟨[], false, cs⟩
      | some (g, rest) =>
        let more := readGroups room false rest
        { more with groups := g :: more.groups }

/-- Eight groups as an address. -/
def ofGroups? (gs : List UInt16) : Option Ipv6 :=
  if h : gs.length = 8 then some ⟨gs, h⟩ else none

/-- An address at the front of a text, and the rest. -/
def read? (cs : List Char) : Option (Ipv6 × List Char) := do
  let head := readGroups 8 true cs
  if head.groups.length = 8 then
    return (← ofGroups? head.groups, head.rest)
  if head.endsInIpv4 then none
  let cs ← char? ':' head.rest
  let cs ← char? ':' cs
  let tail := readGroups (7 - head.groups.length) true cs
  let zeros := List.replicate (8 - head.groups.length - tail.groups.length) 0
  return (← ofGroups? (head.groups ++ zeros ++ tail.groups), tail.rest)

end Ipv6

end FramedRelay.Address
