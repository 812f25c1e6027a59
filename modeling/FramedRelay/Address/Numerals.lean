/-!
# Numbers in addresses

The parts of an address are numbers in base ten or sixteen, of limited length or of limited
value. Every reader here takes what it needs off the front of a text and gives back the rest.
-/

namespace FramedRelay.Address

/-- The value of a digit in a base of at most sixteen. -/
def digit? (base : Nat) (c : Char) : Option Nat :=
  let value? :=
    if '0' ≤ c ∧ c ≤ '9' then some (c.toNat - '0'.toNat)
    else if 'a' ≤ c ∧ c ≤ 'f' then some (c.toNat - 'a'.toNat + 10)
    else if 'A' ≤ c ∧ c ≤ 'F' then some (c.toNat - 'A'.toNat + 10)
    else none
  value?.filter (· < base)

/-- The digits at the front of a text, and the rest. -/
def digits (base : Nat) : List Char → List Nat × List Char
  | [] => ([], [])
  | c :: cs =>
    match digit? base c with
    | some d => (d :: (digits base cs).1, (digits base cs).2)
    | none => ([], c :: cs)

/-- The number with the given digits, the highest first. -/
def ofDigits (base : Nat) (ds : List Nat) : Nat :=
  ds.foldl (fun n d => base * n + d) 0

/-- A number below `limit`, of any number of digits. -/
def number? (base limit : Nat) (cs : List Char) : Option (Nat × List Char) :=
  let (ds, rest) := digits base cs
  let n := ofDigits base ds
  if ds.isEmpty ∨ limit ≤ n then none else some (n, rest)

/-- A number of at most `width` digits. -/
def short? (base width : Nat) (cs : List Char) : Option (Nat × List Char) :=
  let (ds, rest) := digits base cs
  if ds.isEmpty ∨ width < ds.length then none else some (ofDigits base ds, rest)

/-- A given character. -/
def char? (c : Char) : List Char → Option (List Char)
  | [] => none
  | d :: cs => if c = d then some cs else none

end FramedRelay.Address
